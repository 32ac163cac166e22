import ExtHttp.Bisection

/-!
# Letters

The tables of `php_http_utf8.h` and the bisections of `isualpha`. The first loop has its bounds at
the first and the last range, the second has its lower bound at the first character, and none of
these is ever looked at.
-/
namespace ExtHttp
open Bisection

/-- Tables as `isualpha` expects them: ranges one after the other, and single characters in their
order. -/
structure Utf8Table where
  ranges : List (UInt32 × UInt32)
  chars : List UInt32
  ranges_le : ∀ u ∈ ranges, u.1 ≤ u.2
  ranges_sorted : ranges.Pairwise fun u v => u.2 < v.1
  chars_sorted : chars.Pairwise (· < ·)
  two_ranges : 2 ≤ ranges.length
  two_chars : 2 ≤ chars.length

/-- `utf8_ranges` -/
def utf8Ranges : List (UInt32 × UInt32) :=
   [(0x41, 0x5a), (0x61, 0x7a), (0xc0, 0xd6), (0xd8, 0xf6), (0xf8, 0x2c1), (0x2c6, 0x2d1),
     (0x2e0, 0x2e4),
    (0x370, 0x374), (0x376, 0x377), (0x37a, 0x37d), (0x388, 0x38a), (0x38e, 0x3a1), (0x3a3, 0x3f5),
    (0x3f7, 0x481), (0x48a, 0x52f), (0x531, 0x556), (0x561, 0x587), (0x5b0, 0x5bd), (0x5c1, 0x5c2),
    (0x5c4, 0x5c5), (0x5d0, 0x5ea), (0x5f0, 0x5f2), (0x610, 0x61a), (0x620, 0x657), (0x659, 0x669),
    (0x66e, 0x6d3), (0x6d5, 0x6dc), (0x6e1, 0x6e8), (0x6ed, 0x6fc), (0x710, 0x73f), (0x74d, 0x7b1),
    (0x7c0, 0x7ea), (0x7f4, 0x7f5), (0x800, 0x817), (0x81a, 0x82c), (0x840, 0x858), (0x860, 0x86a),
    (0x8a0, 0x8b4), (0x8b6, 0x8bd), (0x8d4, 0x8df), (0x8e3, 0x8e9), (0x8f0, 0x93b), (0x93d, 0x94c),
    (0x94e, 0x950), (0x955, 0x963), (0x966, 0x96f), (0x971, 0x983), (0x985, 0x98c), (0x98f, 0x990),
    (0x993, 0x9a8), (0x9aa, 0x9b0), (0x9b6, 0x9b9), (0x9bd, 0x9c4), (0x9c7, 0x9c8), (0x9cb, 0x9cc),
    (0x9dc, 0x9dd), (0x9df, 0x9e3), (0x9e6, 0x9f1), (0xa01, 0xa03), (0xa05, 0xa0a), (0xa0f, 0xa10),
    (0xa13, 0xa28), (0xa2a, 0xa30), (0xa32, 0xa33), (0xa35, 0xa36), (0xa38, 0xa39), (0xa3e, 0xa42),
    (0xa47, 0xa48), (0xa4b, 0xa4c), (0xa59, 0xa5c), (0xa66, 0xa75), (0xa81, 0xa83), (0xa85, 0xa8d),
    (0xa8f, 0xa91), (0xa93, 0xaa8), (0xaaa, 0xab0), (0xab2, 0xab3), (0xab5, 0xab9), (0xabd, 0xac5),
    (0xac7, 0xac9), (0xacb, 0xacc), (0xae0, 0xae3), (0xae6, 0xaef), (0xaf9, 0xafc), (0xb01, 0xb03),
    (0xb05, 0xb0c), (0xb0f, 0xb10), (0xb13, 0xb28), (0xb2a, 0xb30), (0xb32, 0xb33), (0xb35, 0xb39),
    (0xb3d, 0xb44), (0xb47, 0xb48), (0xb4b, 0xb4c), (0xb56, 0xb57), (0xb5c, 0xb5d), (0xb5f, 0xb63),
    (0xb66, 0xb6f), (0xb82, 0xb83), (0xb85, 0xb8a), (0xb8e, 0xb90), (0xb92, 0xb95), (0xb99, 0xb9a),
    (0xb9e, 0xb9f), (0xba3, 0xba4), (0xba8, 0xbaa), (0xbae, 0xbb9), (0xbbe, 0xbc2), (0xbc6, 0xbc8),
    (0xbca, 0xbcc), (0xbe6, 0xbef), (0xc00, 0xc03), (0xc05, 0xc0c), (0xc0e, 0xc10), (0xc12, 0xc28),
    (0xc2a, 0xc39), (0xc3d, 0xc44), (0xc46, 0xc48), (0xc4a, 0xc4c), (0xc55, 0xc56), (0xc58, 0xc5a),
    (0xc60, 0xc63), (0xc66, 0xc6f), (0xc80, 0xc83), (0xc85, 0xc8c), (0xc8e, 0xc90), (0xc92, 0xca8),
    (0xcaa, 0xcb3), (0xcb5, 0xcb9), (0xcbd, 0xcc4), (0xcc6, 0xcc8), (0xcca, 0xccc), (0xcd5, 0xcd6),
    (0xce0, 0xce3), (0xce6, 0xcef), (0xcf1, 0xcf2), (0xd00, 0xd03), (0xd05, 0xd0c), (0xd0e, 0xd10),
    (0xd12, 0xd3a), (0xd3d, 0xd44), (0xd46, 0xd48), (0xd4a, 0xd4c), (0xd54, 0xd57), (0xd5f, 0xd63),
    (0xd66, 0xd6f), (0xd7a, 0xd7f), (0xd82, 0xd83), (0xd85, 0xd96), (0xd9a, 0xdb1), (0xdb3, 0xdbb),
    (0xdc0, 0xdc6), (0xdcf, 0xdd4), (0xdd8, 0xddf), (0xde6, 0xdef), (0xdf2, 0xdf3), (0xe01, 0xe3a),
    (0xe40, 0xe46), (0xe50, 0xe59), (0xe81, 0xe82), (0xe87, 0xe88), (0xe94, 0xe97), (0xe99, 0xe9f),
    (0xea1, 0xea3), (0xeaa, 0xeab), (0xead, 0xeb9), (0xebb, 0xebd), (0xec0, 0xec4), (0xed0, 0xed9),
    (0xedc, 0xedf), (0xf20, 0xf29), (0xf40, 0xf47), (0xf49, 0xf6c), (0xf71, 0xf81), (0xf88, 0xf97),
    (0xf99, 0xfbc), (0x1000, 0x1036), (0x103b, 0x1049), (0x1050, 0x1062), (0x1065, 0x1068),
    (0x106e, 0x1086),
    (0x1090, 0x1099), (0x109c, 0x109d), (0x10a0, 0x10c5), (0x10d0, 0x10fa), (0x10fc, 0x1248),
    (0x124a, 0x124d),
    (0x1250, 0x1256), (0x125a, 0x125d), (0x1260, 0x1288), (0x128a, 0x128d), (0x1290, 0x12b0),
    (0x12b2, 0x12b5),
    (0x12b8, 0x12be), (0x12c2, 0x12c5), (0x12c8, 0x12d6), (0x12d8, 0x1310), (0x1312, 0x1315),
    (0x1318, 0x135a),
    (0x1380, 0x138f), (0x13a0, 0x13f5), (0x13f8, 0x13fd), (0x1401, 0x166c), (0x166f, 0x167f),
    (0x1681, 0x169a),
    (0x16a0, 0x16ea), (0x16ee, 0x16f8), (0x1700, 0x170c), (0x170e, 0x1713), (0x1720, 0x1733),
    (0x1740, 0x1753),
    (0x1760, 0x176c), (0x176e, 0x1770), (0x1772, 0x1773), (0x1780, 0x17b3), (0x17b6, 0x17c8),
    (0x17e0, 0x17e9),
    (0x1810, 0x1819), (0x1820, 0x1877), (0x1880, 0x18aa), (0x18b0, 0x18f5), (0x1900, 0x191e),
    (0x1920, 0x192b),
    (0x1930, 0x1938), (0x1946, 0x196d), (0x1970, 0x1974), (0x1980, 0x19ab), (0x19b0, 0x19c9),
    (0x19d0, 0x19d9),
    (0x1a00, 0x1a1b), (0x1a20, 0x1a5e), (0x1a61, 0x1a74), (0x1a80, 0x1a89), (0x1a90, 0x1a99),
    (0x1b00, 0x1b33),
    (0x1b35, 0x1b43), (0x1b45, 0x1b4b), (0x1b50, 0x1b59), (0x1b80, 0x1ba9), (0x1bac, 0x1be5),
    (0x1be7, 0x1bf1),
    (0x1c00, 0x1c35), (0x1c40, 0x1c49), (0x1c4d, 0x1c7d), (0x1c80, 0x1c88), (0x1ce9, 0x1cec),
    (0x1cee, 0x1cf3),
    (0x1cf5, 0x1cf6), (0x1d00, 0x1dbf), (0x1de7, 0x1df4), (0x1e00, 0x1f15), (0x1f18, 0x1f1d),
    (0x1f20, 0x1f45),
    (0x1f48, 0x1f4d), (0x1f50, 0x1f57), (0x1f5f, 0x1f7d), (0x1f80, 0x1fb4), (0x1fb6, 0x1fbc),
    (0x1fc2, 0x1fc4),
    (0x1fc6, 0x1fcc), (0x1fd0, 0x1fd3), (0x1fd6, 0x1fdb), (0x1fe0, 0x1fec), (0x1ff2, 0x1ff4),
    (0x1ff6, 0x1ffc),
    (0x2090, 0x209c), (0x210a, 0x2113), (0x2119, 0x211d), (0x212a, 0x212d), (0x212f, 0x2139),
    (0x213c, 0x213f),
    (0x2145, 0x2149), (0x2160, 0x2188), (0x24b6, 0x24e9), (0x2c00, 0x2c2e), (0x2c30, 0x2c5e),
    (0x2c60, 0x2ce4),
    (0x2ceb, 0x2cee), (0x2cf2, 0x2cf3), (0x2d00, 0x2d25), (0x2d30, 0x2d67), (0x2d80, 0x2d96),
    (0x2da0, 0x2da6),
    (0x2da8, 0x2dae), (0x2db0, 0x2db6), (0x2db8, 0x2dbe), (0x2dc0, 0x2dc6), (0x2dc8, 0x2dce),
    (0x2dd0, 0x2dd6),
    (0x2dd8, 0x2dde), (0x2de0, 0x2dff), (0x3005, 0x3007), (0x3021, 0x3029), (0x3031, 0x3035),
    (0x3038, 0x303c),
    (0x3041, 0x3096), (0x309d, 0x309f), (0x30a1, 0x30fa), (0x30fc, 0x30ff), (0x3105, 0x312e),
    (0x3131, 0x318e),
    (0x31a0, 0x31ba), (0x31f0, 0x31ff), (0x3400, 0x4db5), (0x4e00, 0x9fea), (0xa000, 0xa48c),
    (0xa4d0, 0xa4fd),
    (0xa500, 0xa60c), (0xa610, 0xa62b), (0xa640, 0xa66e), (0xa674, 0xa67b), (0xa67f, 0xa6ef),
    (0xa717, 0xa71f),
    (0xa722, 0xa788), (0xa78b, 0xa7ae), (0xa7b0, 0xa7b7), (0xa7f7, 0xa801), (0xa803, 0xa805),
    (0xa807, 0xa80a),
    (0xa80c, 0xa827), (0xa840, 0xa873), (0xa880, 0xa8c3), (0xa8d0, 0xa8d9), (0xa8f2, 0xa8f7),
    (0xa900, 0xa92a),
    (0xa930, 0xa952), (0xa960, 0xa97c), (0xa980, 0xa9b2), (0xa9b4, 0xa9bf), (0xa9cf, 0xa9d9),
    (0xa9e0, 0xa9e4),
    (0xa9e6, 0xa9fe), (0xaa00, 0xaa36), (0xaa40, 0xaa4d), (0xaa50, 0xaa59), (0xaa60, 0xaa76),
    (0xaa7e, 0xaabe),
    (0xaadb, 0xaadd), (0xaae0, 0xaaef), (0xaaf2, 0xaaf5), (0xab01, 0xab06), (0xab09, 0xab0e),
    (0xab11, 0xab16),
    (0xab20, 0xab26), (0xab28, 0xab2e), (0xab30, 0xab5a), (0xab5c, 0xab65), (0xab70, 0xabea),
    (0xabf0, 0xabf9),
    (0xac00, 0xd7a3), (0xd7b0, 0xd7c6), (0xd7cb, 0xd7fb), (0xf900, 0xfa6d), (0xfa70, 0xfad9),
    (0xfb00, 0xfb06),
    (0xfb13, 0xfb17), (0xfb1d, 0xfb28), (0xfb2a, 0xfb36), (0xfb38, 0xfb3c), (0xfb40, 0xfb41),
    (0xfb43, 0xfb44),
    (0xfb46, 0xfbb1), (0xfbd3, 0xfd3d), (0xfd50, 0xfd8f), (0xfd92, 0xfdc7), (0xfdf0, 0xfdfb),
    (0xfe70, 0xfe74),
    (0xfe76, 0xfefc), (0xff10, 0xff19), (0xff21, 0xff3a), (0xff41, 0xff5a), (0xff66, 0xffbe),
    (0xffc2, 0xffc7),
    (0xffca, 0xffcf), (0xffd2, 0xffd7), (0xffda, 0xffdc), (0x10000, 0x1000b), (0x1000d, 0x10026),
    (0x10028, 0x1003a), (0x1003c, 0x1003d), (0x1003f, 0x1004d), (0x10050, 0x1005d),
    (0x10080, 0x100fa),
    (0x10140, 0x10174), (0x10280, 0x1029c), (0x102a0, 0x102d0), (0x10300, 0x1031f),
    (0x1032d, 0x1034a),
    (0x10350, 0x1037a), (0x10380, 0x1039d), (0x103a0, 0x103c3), (0x103c8, 0x103cf),
    (0x103d1, 0x103d5),
    (0x10400, 0x1049d), (0x104a0, 0x104a9), (0x104b0, 0x104d3), (0x104d8, 0x104fb),
    (0x10500, 0x10527),
    (0x10530, 0x10563), (0x10600, 0x10736), (0x10740, 0x10755), (0x10760, 0x10767),
    (0x10800, 0x10805),
    (0x1080a, 0x10835), (0x10837, 0x10838), (0x1083f, 0x10855), (0x10860, 0x10876),
    (0x10880, 0x1089e),
    (0x108e0, 0x108f2), (0x108f4, 0x108f5), (0x10900, 0x10915), (0x10920, 0x10939),
    (0x10980, 0x109b7),
    (0x109be, 0x109bf), (0x10a00, 0x10a03), (0x10a05, 0x10a06), (0x10a0c, 0x10a13),
    (0x10a15, 0x10a17),
    (0x10a19, 0x10a33), (0x10a60, 0x10a7c), (0x10a80, 0x10a9c), (0x10ac0, 0x10ac7),
    (0x10ac9, 0x10ae4),
    (0x10b00, 0x10b35), (0x10b40, 0x10b55), (0x10b60, 0x10b72), (0x10b80, 0x10b91),
    (0x10c00, 0x10c48),
    (0x10c80, 0x10cb2), (0x10cc0, 0x10cf2), (0x11000, 0x11045), (0x11066, 0x1106f),
    (0x11082, 0x110b8),
    (0x110d0, 0x110e8), (0x110f0, 0x110f9), (0x11100, 0x11132), (0x11136, 0x1113f),
    (0x11150, 0x11172),
    (0x11180, 0x111bf), (0x111c1, 0x111c4), (0x111d0, 0x111da), (0x11200, 0x11211),
    (0x11213, 0x11234),
    (0x11280, 0x11286), (0x1128a, 0x1128d), (0x1128f, 0x1129d), (0x1129f, 0x112a8),
    (0x112b0, 0x112e8),
    (0x112f0, 0x112f9), (0x11300, 0x11303), (0x11305, 0x1130c), (0x1130f, 0x11310),
    (0x11313, 0x11328),
    (0x1132a, 0x11330), (0x11332, 0x11333), (0x11335, 0x11339), (0x1133d, 0x11344),
    (0x11347, 0x11348),
    (0x1134b, 0x1134c), (0x1135d, 0x11363), (0x11400, 0x11441), (0x11443, 0x11445),
    (0x11447, 0x1144a),
    (0x11450, 0x11459), (0x11480, 0x114c1), (0x114c4, 0x114c5), (0x114d0, 0x114d9),
    (0x11580, 0x115b5),
    (0x115b8, 0x115be), (0x115d8, 0x115dd), (0x11600, 0x1163e), (0x11650, 0x11659),
    (0x11680, 0x116b5),
    (0x116c0, 0x116c9), (0x11700, 0x11719), (0x1171d, 0x1172a), (0x11730, 0x11739),
    (0x118a0, 0x118e9),
    (0x11a00, 0x11a32), (0x11a35, 0x11a3e), (0x11a50, 0x11a83), (0x11a86, 0x11a97),
    (0x11ac0, 0x11af8),
    (0x11c00, 0x11c08), (0x11c0a, 0x11c36), (0x11c38, 0x11c3e), (0x11c50, 0x11c59),
    (0x11c72, 0x11c8f),
    (0x11c92, 0x11ca7), (0x11ca9, 0x11cb6), (0x11d00, 0x11d06), (0x11d08, 0x11d09),
    (0x11d0b, 0x11d36),
    (0x11d3c, 0x11d3d), (0x11d3f, 0x11d41), (0x11d46, 0x11d47), (0x11d50, 0x11d59),
    (0x12000, 0x12399),
    (0x12400, 0x1246e), (0x12480, 0x12543), (0x13000, 0x1342e), (0x14400, 0x14646),
    (0x16800, 0x16a38),
    (0x16a40, 0x16a5e), (0x16a60, 0x16a69), (0x16ad0, 0x16aed), (0x16b00, 0x16b36),
    (0x16b40, 0x16b43),
    (0x16b50, 0x16b59), (0x16b63, 0x16b77), (0x16b7d, 0x16b8f), (0x16f00, 0x16f44),
    (0x16f50, 0x16f7e),
    (0x16f93, 0x16f9f), (0x16fe0, 0x16fe1), (0x17000, 0x187ec), (0x18800, 0x18af2),
    (0x1b000, 0x1b11e),
    (0x1b170, 0x1b2fb), (0x1bc00, 0x1bc6a), (0x1bc70, 0x1bc7c), (0x1bc80, 0x1bc88),
    (0x1bc90, 0x1bc99),
    (0x1d400, 0x1d454), (0x1d456, 0x1d49c), (0x1d49e, 0x1d49f), (0x1d4a5, 0x1d4a6),
    (0x1d4a9, 0x1d4ac),
    (0x1d4ae, 0x1d4b9), (0x1d4bd, 0x1d4c3), (0x1d4c5, 0x1d505), (0x1d507, 0x1d50a),
    (0x1d50d, 0x1d514),
    (0x1d516, 0x1d51c), (0x1d51e, 0x1d539), (0x1d53b, 0x1d53e), (0x1d540, 0x1d544),
    (0x1d54a, 0x1d550),
    (0x1d552, 0x1d6a5), (0x1d6a8, 0x1d6c0), (0x1d6c2, 0x1d6da), (0x1d6dc, 0x1d6fa),
    (0x1d6fc, 0x1d714),
    (0x1d716, 0x1d734), (0x1d736, 0x1d74e), (0x1d750, 0x1d76e), (0x1d770, 0x1d788),
    (0x1d78a, 0x1d7a8),
    (0x1d7aa, 0x1d7c2), (0x1d7c4, 0x1d7cb), (0x1d7ce, 0x1d7ff), (0x1e000, 0x1e006),
    (0x1e008, 0x1e018),
    (0x1e01b, 0x1e021), (0x1e023, 0x1e024), (0x1e026, 0x1e02a), (0x1e800, 0x1e8c4),
    (0x1e900, 0x1e943),
    (0x1e950, 0x1e959), (0x1ee00, 0x1ee03), (0x1ee05, 0x1ee1f), (0x1ee21, 0x1ee22),
    (0x1ee29, 0x1ee32),
    (0x1ee34, 0x1ee37), (0x1ee4d, 0x1ee4f), (0x1ee51, 0x1ee52), (0x1ee61, 0x1ee62),
    (0x1ee67, 0x1ee6a),
    (0x1ee6c, 0x1ee72), (0x1ee74, 0x1ee77), (0x1ee79, 0x1ee7c), (0x1ee80, 0x1ee89),
    (0x1ee8b, 0x1ee9b),
    (0x1eea1, 0x1eea3), (0x1eea5, 0x1eea9), (0x1eeab, 0x1eebb), (0x1f130, 0x1f149),
    (0x1f150, 0x1f169),
    (0x1f170, 0x1f189), (0x20000, 0x2a6d6), (0x2a700, 0x2b734), (0x2b740, 0x2b81d),
    (0x2b820, 0x2cea1),
    (0x2ceb0, 0x2ebe0), (0x2f800, 0x2fa1d)]

/-- `utf8_chars` -/
def utf8Chars : List UInt32 :=
   [0xaa, 0xb5, 0xba, 0x2ec, 0x2ee, 0x345, 0x37f, 0x386, 0x38c, 0x559, 0x5bf, 0x5c7, 0x6ff, 0x7fa,
     0x9b2, 0x9ce,
    0x9d7, 0x9fc, 0xa51, 0xa5e, 0xad0, 0xb71, 0xb9c, 0xbd0, 0xbd7, 0xcde, 0xd4e, 0xdbd, 0xdd6,
    0xe4d, 0xe84,
    0xe8a, 0xe8d, 0xea5, 0xea7, 0xec6, 0xecd, 0xf00, 0x1038, 0x108e, 0x10c7, 0x10cd, 0x1258,
    0x12c0, 0x135f,
    0x17d7, 0x17dc, 0x1aa7, 0x1f59, 0x1f5b, 0x1f5d, 0x1fbe, 0x2071, 0x207f, 0x2102, 0x2107,
    0x2115, 0x2124,
    0x2126, 0x2128, 0x214e, 0x2d27, 0x2d2d, 0x2d6f, 0x2e2f, 0xa8c5, 0xa8fb, 0xa8fd, 0xaa7a,
    0xaac0, 0xaac2,
    0xfb3e, 0x10808, 0x1083c, 0x11176, 0x111dc, 0x11237, 0x1123e, 0x11288, 0x11350, 0x11357,
    0x114c7, 0x11640,
    0x11644, 0x118ff, 0x11c40, 0x11d3a, 0x11d43, 0x1bc9e, 0x1d4a2, 0x1d4bb, 0x1d546, 0x1e947,
    0x1ee24, 0x1ee27,
    0x1ee39, 0x1ee3b, 0x1ee42, 0x1ee47, 0x1ee49, 0x1ee4b, 0x1ee54, 0x1ee57, 0x1ee59, 0x1ee5b,
    0x1ee5d, 0x1ee5f,
    0x1ee64, 0x1ee7e]

/-- The tables are in order. -/
theorem utf8Tables_sorted :
    (utf8Ranges.all (fun u => u.1 ≤ u.2) = true ∧
        (utf8Ranges.zip utf8Ranges.tail).all (fun p => p.1.2 < p.2.1) = true ∧
          (utf8Chars.zip utf8Chars.tail).all (fun p => p.1 < p.2) = true) ∧
      2 ≤ utf8Ranges.length ∧ 2 ≤ utf8Chars.length := by
  decide +kernel

theorem utf8Ranges_le : ∀ u ∈ utf8Ranges, u.1 ≤ u.2 := fun u hu =>
  of_decide_eq_true (List.all_eq_true.mp utf8Tables_sorted.1.1 u hu)

/-- Where each range is before the next one, it is before all that follow. -/
theorem ranges_pairwise {ranges : List (UInt32 × UInt32)} (hle : ∀ u ∈ ranges, u.1 ≤ u.2)
    (hnext : ∀ p ∈ ranges.zip ranges.tail, p.1.2 < p.2.1) :
    ranges.Pairwise fun u v => u.2 < v.1 := by
  induction ranges with
  | nil => exact List.Pairwise.nil
  | cons u ranges ih =>
    have htail := ih (fun v hv => hle v (List.mem_cons_of_mem _ hv)) fun p hp => hnext p <| by
      cases ranges with
      | nil => simp at hp
      | cons v ranges => exact List.mem_cons_of_mem _ hp
    refine List.pairwise_cons.mpr ⟨fun w hw => ?_, htail⟩
    cases ranges with
    | nil => simp at hw
    | cons v ranges =>
      have hfirst : u.2 < v.1 := hnext (u, v) List.mem_cons_self
      rcases List.mem_cons.mp hw with rfl | hw
      · exact hfirst
      · have hsecond : v.2 < w.1 := (List.pairwise_cons.mp htail).1 w hw
        exact UInt32.lt_trans hfirst (UInt32.lt_of_le_of_lt (hle v (by simp)) hsecond)

theorem chars_pairwise {chars : List UInt32} (hnext : ∀ p ∈ chars.zip chars.tail, p.1 < p.2) :
    chars.Pairwise (· < ·) := by
  have hranges : ∀ p ∈ (chars.map fun c => (c, c)).zip (chars.map fun c => (c, c)).tail,
      p.1.2 < p.2.1 := by
    intro p hp
    rw [← List.map_tail, List.zip_map, List.mem_map] at hp
    obtain ⟨q, hq, rfl⟩ := hp
    exact hnext q hq
  have hpairwise := ranges_pairwise (fun u hu => by
    obtain ⟨c, -, rfl⟩ := List.mem_map.mp hu
    exact UInt32.le_refl c) hranges
  rwa [List.pairwise_map] at hpairwise

/-- The tables of the extension. -/
def utf8Table : Utf8Table where
  ranges := utf8Ranges
  chars := utf8Chars
  ranges_le := utf8Ranges_le
  ranges_sorted := ranges_pairwise utf8Ranges_le fun p hp =>
    of_decide_eq_true (List.all_eq_true.mp utf8Tables_sorted.1.2.1 p hp)
  chars_sorted := chars_pairwise fun p hp =>
    of_decide_eq_true (List.all_eq_true.mp utf8Tables_sorted.1.2.2 p hp)
  two_ranges := utf8Tables_sorted.2.1
  two_chars := utf8Tables_sorted.2.2

/-- A range as the first loop looks at it. -/
def rangeProbe (ch : UInt32) (u : UInt32 × UInt32) : Probe :=
  if u.1 ≤ ch ∧ ch ≤ u.2 then .hit
  else if ch < u.1 then .above
  else if u.2 ≠ 0 ∧ u.2 < ch ∨ u.2 = 0 ∧ u.1 < ch then .below
  else .apart

/-- A character as the second loop looks at it. -/
def charProbe (ch u : UInt32) : Probe :=
  if u = ch then .hit else if ch < u then .above else .below

namespace Utf8Table
variable (table : Utf8Table) (ch : UInt32)

/-- `hi` of the first loop, an `unsigned` -/
def rangesHi : ℕ := (table.ranges.length - 1) % 2 ^ 32

/-- `hi` of the second loop -/
def charsHi : ℕ := table.chars.length % 2 ^ 32

/-- `isualpha` -/
def isualpha : Outcome :=
  match search (fun i => table.ranges[i]?.map (rangeProbe ch))
    (table.rangesHi + 1) table.rangesHi with
  | .missing => search (fun i => table.chars[i]?.map (charProbe ch))
    (table.charsHi + 1) table.charsHi
  | outcome => outcome

/-- A character that is in the tables. -/
def Listed : Prop := (∃ u ∈ table.ranges, u.1 ≤ ch ∧ ch ≤ u.2) ∨ ch ∈ table.chars

/-- A character in an entry that the loops come to. -/
def Within : Prop :=
  (∃ i u, table.ranges[i]? = some u ∧ Reached table.rangesHi i ∧ u.1 ≤ ch ∧ ch ≤ u.2) ∨
    ∃ i, table.chars[i]? = some ch ∧ Reached table.charsHi i

variable {table} {ch : UInt32}

theorem rangeProbe_hit {u : UInt32 × UInt32} : rangeProbe ch u = .hit ↔ u.1 ≤ ch ∧ ch ≤ u.2 := by
  unfold rangeProbe
  split_ifs with hhit <;> simp [hhit]

theorem rangeProbe_above {u : UInt32 × UInt32} (h : rangeProbe ch u = .above) : ch < u.1 := by
  unfold rangeProbe at h
  split_ifs at h with _ habove
  exact habove

theorem rangeProbe_below {u : UInt32 × UInt32} (h : rangeProbe ch u = .below) : u.2 < ch := by
  unfold rangeProbe at h
  split_ifs at h with _ _ hbelow
  rcases hbelow with ⟨-, hless⟩ | ⟨hzero, hless⟩
  · exact hless
  · grind

theorem rangeProbe_apart {u : UInt32 × UInt32} (hle : u.1 ≤ u.2) : rangeProbe ch u ≠ .apart := by
  unfold rangeProbe
  split_ifs with hhit habove hbelow
  · exact Probe.noConfusion
  · exact Probe.noConfusion
  · exact Probe.noConfusion
  · refine absurd ?_ hbelow
    have hfirst := UInt32.not_lt.mp habove
    have hlast : u.2 < ch := UInt32.not_le.mp fun h => hhit ⟨hfirst, h⟩
    by_cases hzero : u.2 = 0
    · exact .inr ⟨hzero, UInt32.lt_of_le_of_lt hle hlast⟩
    · exact .inl ⟨hzero, hlast⟩

theorem charProbe_hit {u : UInt32} : charProbe ch u = .hit ↔ u = ch := by
  unfold charProbe
  split_ifs with hhit <;> simp [hhit]

theorem charProbe_above {u : UInt32} (h : charProbe ch u = .above) : ch < u := by
  unfold charProbe at h
  split_ifs at h with _ habove
  exact habove

theorem charProbe_below {u : UInt32} (h : charProbe ch u = .below) : u < ch := by
  unfold charProbe at h
  split_ifs at h with hhit habove
  grind

theorem charProbe_apart {u : UInt32} : charProbe ch u ≠ .apart := by
  unfold charProbe
  split_ifs <;> exact Probe.noConfusion

theorem ranges_lt {i j : ℕ} {u v : UInt32 × UInt32} (hu : table.ranges[i]? = some u)
    (hv : table.ranges[j]? = some v) (hij : i < j) : u.2 < v.1 := by
  obtain ⟨hi, rfl⟩ := List.getElem?_eq_some_iff.mp hu
  obtain ⟨hj, rfl⟩ := List.getElem?_eq_some_iff.mp hv
  exact List.pairwise_iff_getElem.mp table.ranges_sorted i j hi hj hij

theorem chars_lt {i j : ℕ} {u v : UInt32} (hu : table.chars[i]? = some u)
    (hv : table.chars[j]? = some v) (hij : i < j) : u < v := by
  obtain ⟨hi, rfl⟩ := List.getElem?_eq_some_iff.mp hu
  obtain ⟨hj, rfl⟩ := List.getElem?_eq_some_iff.mp hv
  exact List.pairwise_iff_getElem.mp table.chars_sorted i j hi hj hij

theorem range_le {i : ℕ} {u : UInt32 × UInt32} (hu : table.ranges[i]? = some u) : u.1 ≤ u.2 :=
  table.ranges_le u (List.mem_of_getElem? hu)

theorem ranges_ordered (table : Utf8Table) (ch : UInt32) :
    Ordered (fun i => table.ranges[i]?.map (rangeProbe ch)) table.ranges.length where
  isSome i hi := by simp [hi]
  above i _ habove j _ hij hhit := by
    obtain ⟨u, hu, hprobe⟩ := Option.map_eq_some_iff.mp habove
    obtain ⟨v, hv, hhit⟩ := Option.map_eq_some_iff.mp hhit
    have hless := rangeProbe_above hprobe
    have hin := rangeProbe_hit.mp hhit
    rcases Nat.eq_or_lt_of_le hij with rfl | hij
    · rw [hu, Option.some_inj] at hv
      exact absurd (hv ▸ hin.1) (UInt32.not_le.mpr hless)
    · have hbefore := ranges_lt hu hv hij
      have hle := range_le hu
      grind
  below i _ hbelow j hij hhit := by
    obtain ⟨u, hu, hprobe⟩ := Option.map_eq_some_iff.mp hbelow
    obtain ⟨v, hv, hhit⟩ := Option.map_eq_some_iff.mp hhit
    have hless := rangeProbe_below hprobe
    have hin := rangeProbe_hit.mp hhit
    rcases Nat.eq_or_lt_of_le hij with rfl | hij
    · rw [hu, Option.some_inj] at hv
      exact absurd (hv ▸ hin.2) (UInt32.not_le.mpr hless)
    · have hbefore := ranges_lt hv hu hij
      have hle := range_le hu
      grind
  apart i _ hapart j _ _ := by
    obtain ⟨u, hu, hprobe⟩ := Option.map_eq_some_iff.mp hapart
    exact rangeProbe_apart (range_le hu) hprobe

theorem chars_ordered (table : Utf8Table) (ch : UInt32) :
    Ordered (fun i => table.chars[i]?.map (charProbe ch)) table.chars.length where
  isSome i hi := by simp [hi]
  above i _ habove j _ hij hhit := by
    obtain ⟨u, hu, hprobe⟩ := Option.map_eq_some_iff.mp habove
    obtain ⟨v, hv, hhit⟩ := Option.map_eq_some_iff.mp hhit
    have hless := charProbe_above hprobe
    have heq := charProbe_hit.mp hhit
    rcases Nat.eq_or_lt_of_le hij with rfl | hij
    · rw [hu, Option.some_inj] at hv
      grind
    · have hbefore := chars_lt hu hv hij
      grind
  below i _ hbelow j hij hhit := by
    obtain ⟨u, hu, hprobe⟩ := Option.map_eq_some_iff.mp hbelow
    obtain ⟨v, hv, hhit⟩ := Option.map_eq_some_iff.mp hhit
    have hless := charProbe_below hprobe
    have heq := charProbe_hit.mp hhit
    rcases Nat.eq_or_lt_of_le hij with rfl | hij
    · rw [hu, Option.some_inj] at hv
      grind
    · have hbefore := chars_lt hv hu hij
      grind
  apart i _ hapart j _ _ := by
    obtain ⟨u, -, hprobe⟩ := Option.map_eq_some_iff.mp hapart
    exact charProbe_apart hprobe

open Classical in
/-- The first loop comes to its end and finds the ranges between its bounds. -/
theorem search_ranges (table : Utf8Table) (ch : UInt32) :
    search (fun i => table.ranges[i]?.map (rangeProbe ch)) (table.rangesHi + 1) table.rangesHi =
      if ∃ i u, table.ranges[i]? = some u ∧ Reached table.rangesHi i ∧ u.1 ≤ ch ∧ ch ≤ u.2
      then .found else .missing := by
  have htwo := table.two_ranges
  have hhi : table.rangesHi ≤ table.ranges.length := by
    have hmod := Nat.mod_le (table.ranges.length - 1) (2 ^ 32)
    unfold rangesHi
    omega
  rw [search_spec (ranges_ordered table ch) hhi (by omega) (Nat.lt_succ_self _)]
  refine if_congr ⟨?_, ?_⟩ rfl rfl
  · rintro ⟨i, -, hreach, hhit⟩
    obtain ⟨u, hu, hprobe⟩ := Option.map_eq_some_iff.mp hhit
    exact ⟨i, u, hu, hreach, rangeProbe_hit.mp hprobe⟩
  · rintro ⟨i, u, hu, hreach, hin⟩
    exact ⟨i, Nat.lt_succ_of_le hreach.le, hreach,
      Option.map_eq_some_iff.mpr ⟨u, hu, rangeProbe_hit.mpr hin⟩⟩

open Classical in
/-- The second loop comes to its end and finds the characters between its bounds. -/
theorem search_chars (table : Utf8Table) (ch : UInt32) :
    search (fun i => table.chars[i]?.map (charProbe ch)) (table.charsHi + 1) table.charsHi =
      if ∃ i, table.chars[i]? = some ch ∧ Reached table.charsHi i then .found else .missing := by
  have htwo := table.two_chars
  have hhi : table.charsHi ≤ table.chars.length := Nat.mod_le _ _
  rw [search_spec (chars_ordered table ch) hhi (by omega) (Nat.lt_succ_self _)]
  refine if_congr ⟨?_, ?_⟩ rfl rfl
  · rintro ⟨i, -, hreach, hhit⟩
    obtain ⟨u, hu, hprobe⟩ := Option.map_eq_some_iff.mp hhit
    rw [charProbe_hit] at hprobe
    exact ⟨i, hprobe ▸ hu, hreach⟩
  · rintro ⟨i, hu, hreach⟩
    exact ⟨i, Nat.lt_succ_of_le hreach.le, hreach,
      Option.map_eq_some_iff.mpr ⟨ch, hu, charProbe_hit.mpr rfl⟩⟩

open Classical in
/-- `isualpha` comes to its end, reads nothing but entries, and finds what is in the entries it
comes to. -/
theorem isualpha_eq (table : Utf8Table) (ch : UInt32) :
    table.isualpha ch = if table.Within ch then .found else .missing := by
  unfold isualpha Within
  rw [search_ranges, search_chars]
  by_cases hrange : ∃ i u, table.ranges[i]? = some u ∧ Reached table.rangesHi i ∧
    u.1 ≤ ch ∧ ch ≤ u.2
  · rw [if_pos hrange, if_pos (Or.inl hrange)]
  · rw [if_neg hrange]
    dsimp only
    by_cases hchar : ∃ i, table.chars[i]? = some ch ∧ Reached table.charsHi i
    · rw [if_pos hchar, if_pos (Or.inr hchar)]
    · rw [if_neg hchar, if_neg (not_or.mpr ⟨hrange, hchar⟩)]

theorem Within.listed (h : table.Within ch) : table.Listed ch := by
  rcases h with ⟨i, u, hu, -, hin⟩ | ⟨i, hu, -⟩
  · exact .inl ⟨u, List.mem_of_getElem? hu, hin⟩
  · exact .inr (List.mem_of_getElem? hu)

/-- The loops end without a read outside of the tables, and the answer is the right one exactly for
the characters that are in no entry, or in one between the bounds. -/
theorem isualpha_iff (table : Utf8Table) (ch : UInt32) :
    (table.isualpha ch = .found ∨ table.isualpha ch = .missing) ∧
      ((table.isualpha ch = .found ↔ table.Listed ch) ↔ (table.Listed ch → table.Within ch)) := by
  rw [isualpha_eq]
  by_cases h : table.Within ch
  · rw [if_pos h]
    exact ⟨.inl rfl, iff_of_true (iff_of_true rfl h.listed) fun _ => h⟩
  · rw [if_neg h]
    refine ⟨.inr rfl, fun hiff hlisted => ?_, fun hsub => ?_⟩
    · exact absurd (hiff.mpr hlisted) Outcome.noConfusion
    · exact iff_of_false Outcome.noConfusion fun hlisted => h (hsub hlisted)

/-- Latin capital letters are in the first range. -/
theorem isualpha_capital : ¬ (utf8Table.isualpha 0x41 = .found ↔ utf8Table.Listed 0x41) := by
  have hmissing : utf8Table.isualpha 0x41 = .missing := by decide +kernel
  have hlisted : utf8Table.Listed 0x41 :=
    .inl ⟨(0x41, 0x5a), List.mem_cons_self, by decide, by decide⟩
  rw [hmissing]
  exact fun h => absurd (h.mpr hlisted) Outcome.noConfusion

end Utf8Table
end ExtHttp
