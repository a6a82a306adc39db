import SexprEdit.Text.Basic

/-!
# Simple case folding

Two characters are the same letter when they fold to the same character. Folding is the Unicode table of simple
foldings (statuses C and S), one character to one character, kept as runs of equal distance.
-/

namespace SexprEdit

/-- Runs `(first, last, stride, distance)`: every `stride`-th code point from `first` to `last` folds to the code
point at that distance. -/
def foldingRuns : List (Nat × Nat × Nat × Int) :=
  [(0x41, 0x5a, 1, 0x20), (0xb5, 0xb5, 1, 0x307), (0xc0, 0xd6, 1, 0x20), (0xd8, 0xde, 1, 0x20),
   (0x100, 0x12e, 2, 0x1), (0x132, 0x136, 2, 0x1), (0x139, 0x147, 2, 0x1), (0x14a, 0x176, 2, 0x1),
   (0x178, 0x178, 1, -0x79), (0x179, 0x17d, 2, 0x1), (0x17f, 0x17f, 1, -0x10c), (0x181, 0x181, 1, 0xd2),
   (0x182, 0x184, 2, 0x1), (0x186, 0x186, 1, 0xce), (0x187, 0x187, 1, 0x1), (0x189, 0x18a, 1, 0xcd),
   (0x18b, 0x18b, 1, 0x1), (0x18e, 0x18e, 1, 0x4f), (0x18f, 0x18f, 1, 0xca), (0x190, 0x190, 1, 0xcb),
   (0x191, 0x191, 1, 0x1), (0x193, 0x193, 1, 0xcd), (0x194, 0x194, 1, 0xcf), (0x196, 0x196, 1, 0xd3),
   (0x197, 0x197, 1, 0xd1), (0x198, 0x198, 1, 0x1), (0x19c, 0x19c, 1, 0xd3), (0x19d, 0x19d, 1, 0xd5),
   (0x19f, 0x19f, 1, 0xd6), (0x1a0, 0x1a4, 2, 0x1), (0x1a6, 0x1a6, 1, 0xda), (0x1a7, 0x1a7, 1, 0x1),
   (0x1a9, 0x1a9, 1, 0xda), (0x1ac, 0x1ac, 1, 0x1), (0x1ae, 0x1ae, 1, 0xda), (0x1af, 0x1af, 1, 0x1),
   (0x1b1, 0x1b2, 1, 0xd9), (0x1b3, 0x1b5, 2, 0x1), (0x1b7, 0x1b7, 1, 0xdb), (0x1b8, 0x1b8, 1, 0x1),
   (0x1bc, 0x1bc, 1, 0x1), (0x1c4, 0x1c4, 1, 0x2), (0x1c5, 0x1c5, 1, 0x1), (0x1c7, 0x1c7, 1, 0x2),
   (0x1c8, 0x1c8, 1, 0x1), (0x1ca, 0x1ca, 1, 0x2), (0x1cb, 0x1db, 2, 0x1), (0x1de, 0x1ee, 2, 0x1),
   (0x1f1, 0x1f1, 1, 0x2), (0x1f2, 0x1f4, 2, 0x1), (0x1f6, 0x1f6, 1, -0x61), (0x1f7, 0x1f7, 1, -0x38),
   (0x1f8, 0x21e, 2, 0x1), (0x220, 0x220, 1, -0x82), (0x222, 0x232, 2, 0x1), (0x23a, 0x23a, 1, 0x2a2b),
   (0x23b, 0x23b, 1, 0x1), (0x23d, 0x23d, 1, -0xa3), (0x23e, 0x23e, 1, 0x2a28), (0x241, 0x241, 1, 0x1),
   (0x243, 0x243, 1, -0xc3), (0x244, 0x244, 1, 0x45), (0x245, 0x245, 1, 0x47), (0x246, 0x24e, 2, 0x1),
   (0x345, 0x345, 1, 0x74), (0x370, 0x372, 2, 0x1), (0x376, 0x376, 1, 0x1), (0x37f, 0x37f, 1, 0x74),
   (0x386, 0x386, 1, 0x26), (0x388, 0x38a, 1, 0x25), (0x38c, 0x38c, 1, 0x40), (0x38e, 0x38f, 1, 0x3f),
   (0x391, 0x3a1, 1, 0x20), (0x3a3, 0x3ab, 1, 0x20), (0x3c2, 0x3c2, 1, 0x1), (0x3cf, 0x3cf, 1, 0x8),
   (0x3d0, 0x3d0, 1, -0x1e), (0x3d1, 0x3d1, 1, -0x19), (0x3d5, 0x3d5, 1, -0xf), (0x3d6, 0x3d6, 1, -0x16),
   (0x3d8, 0x3ee, 2, 0x1), (0x3f0, 0x3f0, 1, -0x36), (0x3f1, 0x3f1, 1, -0x30), (0x3f4, 0x3f4, 1, -0x3c),
   (0x3f5, 0x3f5, 1, -0x40), (0x3f7, 0x3f7, 1, 0x1), (0x3f9, 0x3f9, 1, -0x7), (0x3fa, 0x3fa, 1, 0x1),
   (0x3fd, 0x3ff, 1, -0x82), (0x400, 0x40f, 1, 0x50), (0x410, 0x42f, 1, 0x20), (0x460, 0x480, 2, 0x1),
   (0x48a, 0x4be, 2, 0x1), (0x4c0, 0x4c0, 1, 0xf), (0x4c1, 0x4cd, 2, 0x1), (0x4d0, 0x52e, 2, 0x1),
   (0x531, 0x556, 1, 0x30), (0x10a0, 0x10c5, 1, 0x1c60), (0x10c7, 0x10c7, 1, 0x1c60),
   (0x10cd, 0x10cd, 1, 0x1c60), (0x13f8, 0x13fd, 1, -0x8), (0x1c80, 0x1c80, 1, -0x184e),
   (0x1c81, 0x1c81, 1, -0x184d), (0x1c82, 0x1c82, 1, -0x1844), (0x1c83, 0x1c84, 1, -0x1842),
   (0x1c85, 0x1c85, 1, -0x1843), (0x1c86, 0x1c86, 1, -0x183c), (0x1c87, 0x1c87, 1, -0x1824),
   (0x1c88, 0x1c88, 1, 0x89c3), (0x1c89, 0x1c89, 1, 0x1), (0x1c90, 0x1cba, 1, -0xbc0),
   (0x1cbd, 0x1cbf, 1, -0xbc0), (0x1e00, 0x1e94, 2, 0x1), (0x1e9b, 0x1e9b, 1, -0x3a),
   (0x1e9e, 0x1e9e, 1, -0x1dbf), (0x1ea0, 0x1efe, 2, 0x1), (0x1f08, 0x1f0f, 1, -0x8),
   (0x1f18, 0x1f1d, 1, -0x8), (0x1f28, 0x1f2f, 1, -0x8), (0x1f38, 0x1f3f, 1, -0x8),
   (0x1f48, 0x1f4d, 1, -0x8), (0x1f59, 0x1f5f, 2, -0x8), (0x1f68, 0x1f6f, 1, -0x8),
   (0x1f88, 0x1f8f, 1, -0x8), (0x1f98, 0x1f9f, 1, -0x8), (0x1fa8, 0x1faf, 1, -0x8),
   (0x1fb8, 0x1fb9, 1, -0x8), (0x1fba, 0x1fbb, 1, -0x4a), (0x1fbc, 0x1fbc, 1, -0x9),
   (0x1fbe, 0x1fbe, 1, -0x1c05), (0x1fc8, 0x1fcb, 1, -0x56), (0x1fcc, 0x1fcc, 1, -0x9),
   (0x1fd3, 0x1fd3, 1, -0x1c43), (0x1fd8, 0x1fd9, 1, -0x8), (0x1fda, 0x1fdb, 1, -0x64),
   (0x1fe3, 0x1fe3, 1, -0x1c33), (0x1fe8, 0x1fe9, 1, -0x8), (0x1fea, 0x1feb, 1, -0x70),
   (0x1fec, 0x1fec, 1, -0x7), (0x1ff8, 0x1ff9, 1, -0x80), (0x1ffa, 0x1ffb, 1, -0x7e),
   (0x1ffc, 0x1ffc, 1, -0x9), (0x2126, 0x2126, 1, -0x1d5d), (0x212a, 0x212a, 1, -0x20bf),
   (0x212b, 0x212b, 1, -0x2046), (0x2132, 0x2132, 1, 0x1c), (0x2160, 0x216f, 1, 0x10),
   (0x2183, 0x2183, 1, 0x1), (0x24b6, 0x24cf, 1, 0x1a), (0x2c00, 0x2c2f, 1, 0x30), (0x2c60, 0x2c60, 1, 0x1),
   (0x2c62, 0x2c62, 1, -0x29f7), (0x2c63, 0x2c63, 1, -0xee6), (0x2c64, 0x2c64, 1, -0x29e7),
   (0x2c67, 0x2c6b, 2, 0x1), (0x2c6d, 0x2c6d, 1, -0x2a1c), (0x2c6e, 0x2c6e, 1, -0x29fd),
   (0x2c6f, 0x2c6f, 1, -0x2a1f), (0x2c70, 0x2c70, 1, -0x2a1e), (0x2c72, 0x2c72, 1, 0x1),
   (0x2c75, 0x2c75, 1, 0x1), (0x2c7e, 0x2c7f, 1, -0x2a3f), (0x2c80, 0x2ce2, 2, 0x1),
   (0x2ceb, 0x2ced, 2, 0x1), (0x2cf2, 0x2cf2, 1, 0x1), (0xa640, 0xa66c, 2, 0x1), (0xa680, 0xa69a, 2, 0x1),
   (0xa722, 0xa72e, 2, 0x1), (0xa732, 0xa76e, 2, 0x1), (0xa779, 0xa77b, 2, 0x1),
   (0xa77d, 0xa77d, 1, -0x8a04), (0xa77e, 0xa786, 2, 0x1), (0xa78b, 0xa78b, 1, 0x1),
   (0xa78d, 0xa78d, 1, -0xa528), (0xa790, 0xa792, 2, 0x1), (0xa796, 0xa7a8, 2, 0x1),
   (0xa7aa, 0xa7aa, 1, -0xa544), (0xa7ab, 0xa7ab, 1, -0xa54f), (0xa7ac, 0xa7ac, 1, -0xa54b),
   (0xa7ad, 0xa7ad, 1, -0xa541), (0xa7ae, 0xa7ae, 1, -0xa544), (0xa7b0, 0xa7b0, 1, -0xa512),
   (0xa7b1, 0xa7b1, 1, -0xa52a), (0xa7b2, 0xa7b2, 1, -0xa515), (0xa7b3, 0xa7b3, 1, 0x3a0),
   (0xa7b4, 0xa7c2, 2, 0x1), (0xa7c4, 0xa7c4, 1, -0x30), (0xa7c5, 0xa7c5, 1, -0xa543),
   (0xa7c6, 0xa7c6, 1, -0x8a38), (0xa7c7, 0xa7c9, 2, 0x1), (0xa7cb, 0xa7cb, 1, -0xa567),
   (0xa7cc, 0xa7cc, 1, 0x1), (0xa7d0, 0xa7d0, 1, 0x1), (0xa7d6, 0xa7da, 2, 0x1),
   (0xa7dc, 0xa7dc, 1, -0xa641), (0xa7f5, 0xa7f5, 1, 0x1), (0xab70, 0xabbf, 1, -0x97d0),
   (0xfb05, 0xfb05, 1, 0x1), (0xff21, 0xff3a, 1, 0x20), (0x10400, 0x10427, 1, 0x28),
   (0x104b0, 0x104d3, 1, 0x28), (0x10570, 0x1057a, 1, 0x27), (0x1057c, 0x1058a, 1, 0x27),
   (0x1058c, 0x10592, 1, 0x27), (0x10594, 0x10595, 1, 0x27), (0x10c80, 0x10cb2, 1, 0x40),
   (0x10d50, 0x10d65, 1, 0x20), (0x118a0, 0x118bf, 1, 0x20), (0x16e40, 0x16e5f, 1, 0x20),
   (0x1e900, 0x1e921, 1, 0x22)]

/-- Whether a run holds the code point `n`. -/
def inFoldingRun (n : Nat) (run : Nat × Nat × Nat × Int) : Bool :=
  run.1 ≤ n && n ≤ run.2.1 && (n - run.1) % run.2.2.1 == 0

/-- The simple folding of a character, itself if the table has none. -/
def foldCase (c : Char) : Char :=
  match foldingRuns.find? (inFoldingRun c.toNat) with
  | some run => Char.ofNat ((c.toNat : Int) + run.2.2.2).toNat
  | none => c

/-- Whether two characters agree up to case. -/
def sameLetter (c d : Char) : Bool :=
  c == d || foldCase c == foldCase d

end SexprEdit
