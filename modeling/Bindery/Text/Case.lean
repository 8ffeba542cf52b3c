/-
  Upper and lower case of the Unicode standard.

  `isUpper` and `isLower` are the properties Uppercase and Lowercase.
  `toUpper` and `toLower` are the full case mappings that do not depend on
  context, so that one character may become several (`ß` becomes `SS`).  The
  tables list the simple mappings as runs of equally spaced characters with
  one shift.  A character with a simple mapping to the other case has its own,
  with the exceptions that `upperExceptions` and `lowerExceptions` list.
-/
import Bindery.Text.CharClass

namespace Bindery.Text

/-- The characters `first`, `first + stride`, … up to `last`, each mapped to
    the one `shift` code points further. -/
structure CaseRun where
  first : Nat
  last : Nat
  stride : Nat
  shift : Int

/-- The image of the code point `n` under the run, if `n` belongs to it. -/
def CaseRun.map? (r : CaseRun) (n : Nat) : Option Nat :=
  if r.first ≤ n && n ≤ r.last && (n - r.first) % r.stride == 0 then
    some (Int.toNat (n + r.shift))
  else none

def CaseRun.single (c : Nat × Nat) : CaseRun :=
  ⟨c.1, c.1, 1, (c.2 : Int) - c.1⟩

def CaseRun.inverse (r : CaseRun) : CaseRun :=
  ⟨Int.toNat (r.first + r.shift), Int.toNat (r.last + r.shift), r.stride, -r.shift⟩

/-- The characters with an upper case of one other character that has them as its
    lower case. -/
def pairedRuns : List CaseRun := [
  ⟨0x61, 0x7a, 1, -32⟩, ⟨0xe0, 0xf6, 1, -32⟩, ⟨0xf8, 0xfe, 1, -32⟩, ⟨0x101, 0x12f, 2, -1⟩,
  ⟨0x133, 0x137, 2, -1⟩, ⟨0x13a, 0x148, 2, -1⟩, ⟨0x14b, 0x177, 2, -1⟩, ⟨0x17a, 0x17e, 2, -1⟩,
  ⟨0x183, 0x185, 2, -1⟩, ⟨0x1a1, 0x1a5, 2, -1⟩, ⟨0x1b4, 0x1b6, 2, -1⟩, ⟨0x1ce, 0x1dc, 2, -1⟩,
  ⟨0x1df, 0x1ef, 2, -1⟩, ⟨0x1f9, 0x21f, 2, -1⟩, ⟨0x223, 0x233, 2, -1⟩, ⟨0x23f, 0x240, 1, 10815⟩,
  ⟨0x247, 0x24f, 2, -1⟩, ⟨0x256, 0x257, 1, -205⟩, ⟨0x28a, 0x28b, 1, -217⟩, ⟨0x371, 0x373, 2, -1⟩,
  ⟨0x37b, 0x37d, 1, 130⟩, ⟨0x3ad, 0x3af, 1, -37⟩, ⟨0x3b1, 0x3c1, 1, -32⟩, ⟨0x3c3, 0x3cb, 1, -32⟩,
  ⟨0x3cd, 0x3ce, 1, -63⟩, ⟨0x3d9, 0x3ef, 2, -1⟩, ⟨0x430, 0x44f, 1, -32⟩, ⟨0x450, 0x45f, 1, -80⟩,
  ⟨0x461, 0x481, 2, -1⟩, ⟨0x48b, 0x4bf, 2, -1⟩, ⟨0x4c2, 0x4ce, 2, -1⟩, ⟨0x4d1, 0x52f, 2, -1⟩,
  ⟨0x561, 0x586, 1, -48⟩, ⟨0x10d0, 0x10fa, 1, 3008⟩, ⟨0x10fd, 0x10ff, 1, 3008⟩,
  ⟨0x13f8, 0x13fd, 1, -8⟩, ⟨0x1e01, 0x1e95, 2, -1⟩, ⟨0x1ea1, 0x1eff, 2, -1⟩, ⟨0x1f00, 0x1f07, 1, 8⟩,
  ⟨0x1f10, 0x1f15, 1, 8⟩, ⟨0x1f20, 0x1f27, 1, 8⟩, ⟨0x1f30, 0x1f37, 1, 8⟩, ⟨0x1f40, 0x1f45, 1, 8⟩,
  ⟨0x1f51, 0x1f57, 2, 8⟩, ⟨0x1f60, 0x1f67, 1, 8⟩, ⟨0x1f70, 0x1f71, 1, 74⟩, ⟨0x1f72, 0x1f75, 1, 86⟩,
  ⟨0x1f76, 0x1f77, 1, 100⟩, ⟨0x1f78, 0x1f79, 1, 128⟩, ⟨0x1f7a, 0x1f7b, 1, 112⟩,
  ⟨0x1f7c, 0x1f7d, 1, 126⟩, ⟨0x1fb0, 0x1fb1, 1, 8⟩, ⟨0x1fd0, 0x1fd1, 1, 8⟩, ⟨0x1fe0, 0x1fe1, 1, 8⟩,
  ⟨0x2170, 0x217f, 1, -16⟩, ⟨0x24d0, 0x24e9, 1, -26⟩, ⟨0x2c30, 0x2c5f, 1, -48⟩,
  ⟨0x2c68, 0x2c6c, 2, -1⟩, ⟨0x2c81, 0x2ce3, 2, -1⟩, ⟨0x2cec, 0x2cee, 2, -1⟩,
  ⟨0x2d00, 0x2d25, 1, -7264⟩, ⟨0xa641, 0xa66d, 2, -1⟩, ⟨0xa681, 0xa69b, 2, -1⟩,
  ⟨0xa723, 0xa72f, 2, -1⟩, ⟨0xa733, 0xa76f, 2, -1⟩, ⟨0xa77a, 0xa77c, 2, -1⟩,
  ⟨0xa77f, 0xa787, 2, -1⟩, ⟨0xa791, 0xa793, 2, -1⟩, ⟨0xa797, 0xa7a9, 2, -1⟩,
  ⟨0xa7b5, 0xa7c3, 2, -1⟩, ⟨0xa7c8, 0xa7ca, 2, -1⟩, ⟨0xa7cd, 0xa7db, 2, -1⟩,
  ⟨0xab70, 0xabbf, 1, -38864⟩, ⟨0xff41, 0xff5a, 1, -32⟩, ⟨0x10428, 0x1044f, 1, -40⟩,
  ⟨0x104d8, 0x104fb, 1, -40⟩, ⟨0x10597, 0x105bb, 2, -39⟩, ⟨0x10598, 0x105a0, 2, -39⟩,
  ⟨0x105a4, 0x105b0, 2, -39⟩, ⟨0x105b4, 0x105b8, 2, -39⟩, ⟨0x10cc0, 0x10cf2, 1, -64⟩,
  ⟨0x10d70, 0x10d85, 1, -32⟩, ⟨0x118c0, 0x118df, 1, -32⟩, ⟨0x16e60, 0x16e7f, 1, -32⟩,
  ⟨0x16ebb, 0x16ed3, 1, -27⟩, ⟨0x1e922, 0x1e943, 1, -34⟩] ++ [
  (0xff, 0x178), (0x180, 0x243), (0x188, 0x187), (0x18c, 0x18b), (0x192, 0x191), (0x195, 0x1f6),
  (0x199, 0x198), (0x19a, 0x23d), (0x19b, 0xa7dc), (0x19e, 0x220), (0x1a8, 0x1a7), (0x1ad, 0x1ac),
  (0x1b0, 0x1af), (0x1b9, 0x1b8), (0x1bd, 0x1bc), (0x1bf, 0x1f7), (0x1c6, 0x1c4), (0x1c9, 0x1c7),
  (0x1cc, 0x1ca), (0x1dd, 0x18e), (0x1f3, 0x1f1), (0x1f5, 0x1f4), (0x23c, 0x23b), (0x242, 0x241),
  (0x250, 0x2c6f), (0x251, 0x2c6d), (0x252, 0x2c70), (0x253, 0x181), (0x254, 0x186), (0x259, 0x18f),
  (0x25b, 0x190), (0x25c, 0xa7ab), (0x260, 0x193), (0x261, 0xa7ac), (0x263, 0x194), (0x264, 0xa7cb),
  (0x265, 0xa78d), (0x266, 0xa7aa), (0x268, 0x197), (0x269, 0x196), (0x26a, 0xa7ae),
  (0x26b, 0x2c62), (0x26c, 0xa7ad), (0x26f, 0x19c), (0x271, 0x2c6e), (0x272, 0x19d), (0x275, 0x19f),
  (0x27d, 0x2c64), (0x280, 0x1a6), (0x282, 0xa7c5), (0x283, 0x1a9), (0x287, 0xa7b1), (0x288, 0x1ae),
  (0x289, 0x244), (0x28c, 0x245), (0x292, 0x1b7), (0x29d, 0xa7b2), (0x29e, 0xa7b0), (0x377, 0x376),
  (0x3ac, 0x386), (0x3cc, 0x38c), (0x3d7, 0x3cf), (0x3f2, 0x3f9), (0x3f3, 0x37f), (0x3f8, 0x3f7),
  (0x3fb, 0x3fa), (0x4cf, 0x4c0), (0x1c8a, 0x1c89), (0x1d79, 0xa77d), (0x1d7d, 0x2c63),
  (0x1d8e, 0xa7c6), (0x1fe5, 0x1fec), (0x214e, 0x2132), (0x2184, 0x2183), (0x2c61, 0x2c60),
  (0x2c65, 0x23a), (0x2c66, 0x23e), (0x2c73, 0x2c72), (0x2c76, 0x2c75), (0x2cf3, 0x2cf2),
  (0x2d27, 0x10c7), (0x2d2d, 0x10cd), (0xa78c, 0xa78b), (0xa794, 0xa7c4), (0xa7f6, 0xa7f5),
  (0xab53, 0xa7b3), (0x105bc, 0x10595)].map .single

/-- The characters with an upper case of one other character. -/
def upperRuns : List CaseRun := pairedRuns ++ [
  (0xb5, 0x39c), (0x131, 0x49), (0x17f, 0x53), (0x1c5, 0x1c4), (0x1c8, 0x1c7), (0x1cb, 0x1ca),
  (0x1f2, 0x1f1), (0x345, 0x399), (0x3c2, 0x3a3), (0x3d0, 0x392), (0x3d1, 0x398), (0x3d5, 0x3a6),
  (0x3d6, 0x3a0), (0x3f0, 0x39a), (0x3f1, 0x3a1), (0x3f5, 0x395), (0x1c80, 0x412), (0x1c81, 0x414),
  (0x1c82, 0x41e), (0x1c83, 0x421), (0x1c84, 0x422), (0x1c85, 0x422), (0x1c86, 0x42a),
  (0x1c87, 0x462), (0x1c88, 0xa64a), (0x1e9b, 0x1e60), (0x1fbe, 0x399)].map .single

/-- The characters with a lower case of one other character. -/
def lowerRuns : List CaseRun := pairedRuns.map (·.inverse) ++ [
  (0x1c5, 0x1c6), (0x1c8, 0x1c9), (0x1cb, 0x1cc), (0x1f2, 0x1f3), (0x3f4, 0x3b8), (0x1e9e, 0xdf),
  (0x1f88, 0x1f80), (0x1f89, 0x1f81), (0x1f8a, 0x1f82), (0x1f8b, 0x1f83), (0x1f8c, 0x1f84),
  (0x1f8d, 0x1f85), (0x1f8e, 0x1f86), (0x1f8f, 0x1f87), (0x1f98, 0x1f90), (0x1f99, 0x1f91),
  (0x1f9a, 0x1f92), (0x1f9b, 0x1f93), (0x1f9c, 0x1f94), (0x1f9d, 0x1f95), (0x1f9e, 0x1f96),
  (0x1f9f, 0x1f97), (0x1fa8, 0x1fa0), (0x1fa9, 0x1fa1), (0x1faa, 0x1fa2), (0x1fab, 0x1fa3),
  (0x1fac, 0x1fa4), (0x1fad, 0x1fa5), (0x1fae, 0x1fa6), (0x1faf, 0x1fa7), (0x1fbc, 0x1fb3),
  (0x1fcc, 0x1fc3), (0x1ffc, 0x1ff3), (0x2126, 0x3c9), (0x212a, 0x6b), (0x212b, 0xe5)].map .single

def mapRun? (runs : List CaseRun) (n : Nat) : Option Nat := runs.findSome? (·.map? n)

/-- The characters that have the property Uppercase or a lower case of one other
    character, but not both. -/
def upperExceptions : CharClass := .ofLengths [
  304, 1, 148, 1, 2, 1, 2, 1, 38, 1, 479, 3, 7091, 8, 8, 8, 8, 8, 12, 1, 15, 1, 47, 1, 261, 1, 4, 1,
  3, 3, 2, 3, 2, 1, 3, 5, 6, 1, 3, 1, 3, 2, 2, 2, 1, 1, 10, 2, 5, 1, 111290, 26, 26, 26, 26, 26, 26,
  1, 1, 2, 2, 1, 2, 2, 2, 4, 1, 8, 26, 26, 26, 2, 1, 4, 2, 8, 1, 7, 27, 2, 1, 4, 1, 5, 1, 1, 3, 7,
  27, 26, 26, 26, 26, 26, 26, 26, 26, 26, 26, 26, 30, 25, 33, 25, 33, 25, 33, 25, 33, 25, 33, 1,
  6501, 26, 6, 26, 6, 26]

/-- The characters that have the property Lowercase or an upper case of one other
    character, but not both. -/
def lowerExceptions : CharClass := .ofLengths [
  170, 1, 15, 1, 36, 1, 88, 1, 16, 1, 67, 1, 28, 2, 14, 1, 3, 1, 6, 1, 2, 1, 2, 1, 36, 1, 1, 1, 46,
  1, 18, 6, 27, 1, 2, 1, 1, 1, 2, 3, 2, 1, 4, 1, 5, 2, 1, 1, 2, 2, 1, 7, 1, 2, 1, 1, 2, 3, 6, 5, 1,
  1, 2, 7, 2, 26, 7, 2, 30, 5, 149, 1, 21, 1, 31, 1, 75, 1, 355, 1, 38, 2, 2931, 1, 3075, 121, 1, 3,
  1, 16, 1, 49, 214, 5, 1, 2, 1, 1, 176, 1, 1, 1, 1, 1, 1, 1, 41, 8, 8, 8, 8, 8, 10, 3, 1, 2, 10, 3,
  1, 2, 10, 2, 2, 2, 10, 3, 1, 2, 10, 3, 1, 2, 121, 1, 13, 1, 16, 13, 109, 1, 3, 2, 3, 1, 27, 1, 4,
  1, 4, 1, 2, 2, 8, 4, 2855, 1, 2, 1, 2, 7, 102, 1, 31159, 2, 146, 2, 62, 9, 21, 1, 6, 1, 25, 1, 65,
  4, 3, 3, 821, 35, 1, 7, 1, 14, 20374, 7, 12, 5, 3176, 1, 2, 3, 1, 42, 1, 9, 52319, 26, 26, 7, 1,
  18, 26, 26, 26, 4, 1, 1, 1, 7, 1, 11, 26, 26, 26, 26, 26, 26, 26, 26, 26, 26, 26, 26, 26, 26, 26,
  26, 26, 28, 28, 25, 1, 6, 26, 25, 1, 6, 26, 25, 1, 6, 26, 25, 1, 6, 26, 25, 1, 6, 1, 1, 1844, 10,
  1, 20, 6, 6, 261, 62]

def isUpper (c : Char) : Bool :=
  if c.toNat < 128 then c.isUpper
  else (mapRun? lowerRuns c.toNat).isSome != upperExceptions.contains c

def isLower (c : Char) : Bool :=
  if c.toNat < 128 then c.isLower
  else (mapRun? upperRuns c.toNat).isSome != lowerExceptions.contains c

/-- The characters whose upper case has several characters. -/
def upperSequences : List (Nat × List Nat) := [
  (0xdf, [0x53, 0x53]), (0x149, [0x2bc, 0x4e]), (0x1f0, [0x4a, 0x30c]),
  (0x390, [0x399, 0x308, 0x301]), (0x3b0, [0x3a5, 0x308, 0x301]), (0x587, [0x535, 0x552]),
  (0x1e96, [0x48, 0x331]), (0x1e97, [0x54, 0x308]), (0x1e98, [0x57, 0x30a]),
  (0x1e99, [0x59, 0x30a]), (0x1e9a, [0x41, 0x2be]), (0x1f50, [0x3a5, 0x313]),
  (0x1f52, [0x3a5, 0x313, 0x300]), (0x1f54, [0x3a5, 0x313, 0x301]), (0x1f56, [0x3a5, 0x313, 0x342]),
  (0x1fb2, [0x1fba, 0x399]), (0x1fb3, [0x391, 0x399]), (0x1fb4, [0x386, 0x399]),
  (0x1fb6, [0x391, 0x342]), (0x1fb7, [0x391, 0x342, 0x399]), (0x1fbc, [0x391, 0x399]),
  (0x1fc2, [0x1fca, 0x399]), (0x1fc3, [0x397, 0x399]), (0x1fc4, [0x389, 0x399]),
  (0x1fc6, [0x397, 0x342]), (0x1fc7, [0x397, 0x342, 0x399]), (0x1fcc, [0x397, 0x399]),
  (0x1fd2, [0x399, 0x308, 0x300]), (0x1fd3, [0x399, 0x308, 0x301]), (0x1fd6, [0x399, 0x342]),
  (0x1fd7, [0x399, 0x308, 0x342]), (0x1fe2, [0x3a5, 0x308, 0x300]), (0x1fe3, [0x3a5, 0x308, 0x301]),
  (0x1fe4, [0x3a1, 0x313]), (0x1fe6, [0x3a5, 0x342]), (0x1fe7, [0x3a5, 0x308, 0x342]),
  (0x1ff2, [0x1ffa, 0x399]), (0x1ff3, [0x3a9, 0x399]), (0x1ff4, [0x38f, 0x399]),
  (0x1ff6, [0x3a9, 0x342]), (0x1ff7, [0x3a9, 0x342, 0x399]), (0x1ffc, [0x3a9, 0x399]),
  (0xfb00, [0x46, 0x46]), (0xfb01, [0x46, 0x49]), (0xfb02, [0x46, 0x4c]),
  (0xfb03, [0x46, 0x46, 0x49]), (0xfb04, [0x46, 0x46, 0x4c]), (0xfb05, [0x53, 0x54]),
  (0xfb06, [0x53, 0x54]), (0xfb13, [0x544, 0x546]), (0xfb14, [0x544, 0x535]),
  (0xfb15, [0x544, 0x53b]), (0xfb16, [0x54e, 0x546]), (0xfb17, [0x544, 0x53d])] ++
  [(0x1f80, 0x1f08), (0x1f90, 0x1f28), (0x1fa0, 0x1f68)].flatMap fun (first, upper) =>
    (List.range 16).map fun k => (first + k, [upper + k % 8, 0x399])

/-- The characters whose lower case has several characters. -/
def lowerSequences : List (Nat × List Nat) := [
  (0x130, [0x69, 0x307])]

/-- The case mapping given by the runs and the sequences; a character in
    neither stays as it is. -/
def mapCase (runs : List CaseRun) (sequences : List (Nat × List Nat)) (c : Char) : List Char :=
  match sequences.lookup c.toNat with
  | some ns => ns.map Char.ofNat
  | none =>
    match mapRun? runs c.toNat with
    | some n => [Char.ofNat n]
    | none => [c]

def toUpper (c : Char) : List Char :=
  if c.toNat < 128 then [c.toUpper] else mapCase upperRuns upperSequences c

def toLower (c : Char) : List Char :=
  if c.toNat < 128 then [c.toLower] else mapCase lowerRuns lowerSequences c

end Bindery.Text
