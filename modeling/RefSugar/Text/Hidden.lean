import RefSugar.Text.Letters

/-!
Characters that do not show on their own: controls, blanks other than the space, marks that join the
character in front of them, and numbers that stand for no character.
-/
namespace RefSugar.Text

def hiddenRanges : Array (Nat × Nat) := #[
  (0x0, 32), (0x7f, 34), (0xad, 1), (0x300, 112), (0x378, 2), (0x380, 4), (0x38b, 1), (0x38d, 1),
  (0x3a2, 1), (0x483, 7), (0x530, 1), (0x557, 2), (0x58b, 2), (0x590, 46), (0x5bf, 1), (0x5c1, 2),
  (0x5c4, 2), (0x5c7, 9), (0x5eb, 4), (0x5f5, 17), (0x610, 11), (0x61c, 1), (0x64b, 21), (0x670, 1),
  (0x6d6, 8), (0x6df, 6), (0x6e7, 2), (0x6ea, 4), (0x70e, 2), (0x711, 1), (0x730, 29), (0x7a6, 11),
  (0x7b2, 14), (0x7eb, 9), (0x7fb, 3), (0x816, 4), (0x81b, 9), (0x825, 3), (0x829, 7), (0x83f, 1),
  (0x859, 5), (0x85f, 1), (0x86b, 5), (0x890, 16), (0x8ca, 57), (0x93a, 1), (0x93c, 1), (0x941, 8),
  (0x94d, 1), (0x951, 7), (0x962, 2), (0x981, 1), (0x984, 1), (0x98d, 2), (0x991, 2), (0x9a9, 1),
  (0x9b1, 1), (0x9b3, 3), (0x9ba, 3), (0x9be, 1), (0x9c1, 6), (0x9c9, 2), (0x9cd, 1), (0x9cf, 13),
  (0x9de, 1), (0x9e2, 4), (0x9fe, 5), (0xa04, 1), (0xa0b, 4), (0xa11, 2), (0xa29, 1), (0xa31, 1),
  (0xa34, 1), (0xa37, 1), (0xa3a, 4), (0xa41, 24), (0xa5d, 1), (0xa5f, 7), (0xa70, 2), (0xa75, 1),
  (0xa77, 12), (0xa84, 1), (0xa8e, 1), (0xa92, 1), (0xaa9, 1), (0xab1, 1), (0xab4, 1), (0xaba, 3),
  (0xac1, 8), (0xaca, 1), (0xacd, 3), (0xad1, 15), (0xae2, 4), (0xaf2, 7), (0xafa, 8), (0xb04, 1),
  (0xb0d, 2), (0xb11, 2), (0xb29, 1), (0xb31, 1), (0xb34, 1), (0xb3a, 3), (0xb3e, 2), (0xb41, 6),
  (0xb49, 2), (0xb4d, 15), (0xb5e, 1), (0xb62, 4), (0xb78, 11), (0xb84, 1), (0xb8b, 3), (0xb91, 1),
  (0xb96, 3), (0xb9b, 1), (0xb9d, 1), (0xba0, 3), (0xba5, 3), (0xbab, 3), (0xbba, 5), (0xbc0, 1),
  (0xbc3, 3), (0xbc9, 1), (0xbcd, 3), (0xbd1, 21), (0xbfb, 6), (0xc04, 1), (0xc0d, 1), (0xc11, 1),
  (0xc29, 1), (0xc3a, 3), (0xc3e, 3), (0xc45, 19), (0xc5b, 1), (0xc5e, 2), (0xc62, 4), (0xc70, 7),
  (0xc81, 1), (0xc8d, 1), (0xc91, 1), (0xca9, 1), (0xcb4, 1), (0xcba, 3), (0xcbf, 2), (0xcc2, 1),
  (0xcc5, 23), (0xcdf, 1), (0xce2, 4), (0xcf0, 1), (0xcf4, 14), (0xd0d, 1), (0xd11, 1), (0xd3b, 2),
  (0xd3e, 1), (0xd41, 5), (0xd49, 1), (0xd4d, 1), (0xd50, 4), (0xd57, 1), (0xd62, 4), (0xd80, 2),
  (0xd84, 1), (0xd97, 3), (0xdb2, 1), (0xdbc, 1), (0xdbe, 2), (0xdc7, 9), (0xdd2, 6), (0xddf, 7),
  (0xdf0, 2), (0xdf5, 12), (0xe31, 1), (0xe34, 11), (0xe47, 8), (0xe5c, 37), (0xe83, 1), (0xe85, 1),
  (0xe8b, 1), (0xea4, 1), (0xea6, 1), (0xeb1, 1), (0xeb4, 9), (0xebe, 2), (0xec5, 1), (0xec7, 9),
  (0xeda, 2), (0xee0, 32), (0xf18, 2), (0xf35, 1), (0xf37, 1), (0xf39, 1), (0xf48, 1), (0xf6d, 18),
  (0xf80, 5), (0xf86, 2), (0xf8d, 49), (0xfc6, 1), (0xfcd, 1), (0xfdb, 37), (0x102d, 4),
  (0x1032, 6), (0x1039, 2), (0x103d, 2), (0x1058, 2), (0x105e, 3), (0x1071, 4), (0x1082, 1),
  (0x1085, 2), (0x108d, 1), (0x109d, 1), (0x10c6, 1), (0x10c8, 5), (0x10ce, 2), (0x1249, 1),
  (0x124e, 2), (0x1257, 1), (0x1259, 1), (0x125e, 2), (0x1289, 1), (0x128e, 2), (0x12b1, 1),
  (0x12b6, 2), (0x12bf, 1), (0x12c1, 1), (0x12c6, 2), (0x12d7, 1), (0x1311, 1), (0x1316, 2),
  (0x135b, 5), (0x137d, 3), (0x139a, 6), (0x13f6, 2), (0x13fe, 2), (0x1680, 1), (0x169d, 3),
  (0x16f9, 7), (0x1712, 13), (0x1732, 3), (0x1737, 9), (0x1752, 14), (0x176d, 1), (0x1771, 15),
  (0x17b4, 2), (0x17b7, 7), (0x17c6, 1), (0x17c9, 11), (0x17dd, 3), (0x17ea, 6), (0x17fa, 6),
  (0x180b, 5), (0x181a, 6), (0x1879, 7), (0x1885, 2), (0x18a9, 1), (0x18ab, 5), (0x18f6, 10),
  (0x191f, 4), (0x1927, 2), (0x192c, 4), (0x1932, 1), (0x1939, 7), (0x1941, 3), (0x196e, 2),
  (0x1975, 11), (0x19ac, 4), (0x19ca, 6), (0x19db, 3), (0x1a17, 2), (0x1a1b, 3), (0x1a56, 1),
  (0x1a58, 9), (0x1a62, 1), (0x1a65, 8), (0x1a73, 13), (0x1a8a, 6), (0x1a9a, 6), (0x1aae, 86),
  (0x1b34, 10), (0x1b42, 3), (0x1b4d, 1), (0x1b6b, 9), (0x1b80, 2), (0x1ba2, 4), (0x1ba8, 6),
  (0x1be6, 1), (0x1be8, 2), (0x1bed, 1), (0x1bef, 13), (0x1c2c, 8), (0x1c36, 5), (0x1c4a, 3),
  (0x1c8b, 5), (0x1cbb, 2), (0x1cc8, 11), (0x1cd4, 13), (0x1ce2, 7), (0x1ced, 1), (0x1cf4, 1),
  (0x1cf8, 2), (0x1cfb, 5), (0x1dc0, 64), (0x1f16, 2), (0x1f1e, 2), (0x1f46, 2), (0x1f4e, 2),
  (0x1f58, 1), (0x1f5a, 1), (0x1f5c, 1), (0x1f5e, 1), (0x1f7e, 2), (0x1fb5, 1), (0x1fc5, 1),
  (0x1fd4, 2), (0x1fdc, 1), (0x1ff0, 2), (0x1ff5, 1), (0x1fff, 17), (0x2028, 8), (0x205f, 17),
  (0x2072, 2), (0x208f, 1), (0x209d, 3), (0x20c2, 62), (0x218c, 4), (0x242a, 22), (0x244b, 21),
  (0x2b74, 2), (0x2cef, 3), (0x2cf4, 5), (0x2d26, 1), (0x2d28, 5), (0x2d2e, 2), (0x2d68, 7),
  (0x2d71, 15), (0x2d97, 9), (0x2da7, 1), (0x2daf, 1), (0x2db7, 1), (0x2dbf, 1), (0x2dc7, 1),
  (0x2dcf, 1), (0x2dd7, 1), (0x2ddf, 33), (0x2e5e, 34), (0x2e9a, 1), (0x2ef4, 12), (0x2fd6, 26),
  (0x3000, 1), (0x302a, 6), (0x3040, 1), (0x3097, 4), (0x3100, 5), (0x3130, 1), (0x318f, 1),
  (0x31e6, 9), (0x321f, 1), (0xa48d, 3), (0xa4c7, 9), (0xa62c, 20), (0xa66f, 4), (0xa674, 10),
  (0xa69e, 2), (0xa6f0, 2), (0xa6f8, 8), (0xa7dd, 20), (0xa802, 1), (0xa806, 1), (0xa80b, 1),
  (0xa825, 2), (0xa82c, 4), (0xa83a, 6), (0xa878, 8), (0xa8c4, 10), (0xa8da, 24), (0xa8ff, 1),
  (0xa926, 8), (0xa947, 11), (0xa953, 12), (0xa97d, 6), (0xa9b3, 1), (0xa9b6, 4), (0xa9bc, 2),
  (0xa9c0, 1), (0xa9ce, 1), (0xa9da, 4), (0xa9e5, 1), (0xa9ff, 1), (0xaa29, 6), (0xaa31, 2),
  (0xaa35, 11), (0xaa43, 1), (0xaa4c, 1), (0xaa4e, 2), (0xaa5a, 2), (0xaa7c, 1), (0xaab0, 1),
  (0xaab2, 3), (0xaab7, 2), (0xaabe, 2), (0xaac1, 1), (0xaac3, 24), (0xaaec, 2), (0xaaf6, 11),
  (0xab07, 2), (0xab0f, 2), (0xab17, 9), (0xab27, 1), (0xab2f, 1), (0xab6c, 4), (0xabe5, 1),
  (0xabe8, 1), (0xabed, 3), (0xabfa, 6), (0xd7a4, 12), (0xd7c7, 4), (0xd7fc, 4), (0xe000, 6400),
  (0xfa6e, 2), (0xfada, 38), (0xfb07, 12), (0xfb18, 5), (0xfb1e, 1), (0xfb37, 1), (0xfb3d, 1),
  (0xfb3f, 1), (0xfb42, 1), (0xfb45, 1), (0xfdd0, 32), (0xfe00, 16), (0xfe1a, 22), (0xfe53, 1),
  (0xfe67, 1), (0xfe6c, 4), (0xfe75, 1), (0xfefd, 4), (0xff9e, 2), (0xffbf, 3), (0xffc8, 2),
  (0xffd0, 2), (0xffd8, 2), (0xffdd, 3), (0xffe7, 1), (0xffef, 13), (0xfffe, 2), (0x1000c, 1),
  (0x10027, 1), (0x1003b, 1), (0x1003e, 1), (0x1004e, 2), (0x1005e, 34), (0x100fb, 5), (0x10103, 4),
  (0x10134, 3), (0x1018f, 1), (0x1019d, 3), (0x101a1, 47), (0x101fd, 131), (0x1029d, 3),
  (0x102d1, 16), (0x102fc, 4), (0x10324, 9), (0x1034b, 5), (0x10376, 10), (0x1039e, 1),
  (0x103c4, 4), (0x103d6, 42), (0x1049e, 2), (0x104aa, 6), (0x104d4, 4), (0x104fc, 4), (0x10528, 8),
  (0x10564, 11), (0x1057b, 1), (0x1058b, 1), (0x10593, 1), (0x10596, 1), (0x105a2, 1), (0x105b2, 1),
  (0x105ba, 1), (0x105bd, 3), (0x105f4, 12), (0x10737, 9), (0x10756, 10), (0x10768, 24),
  (0x10786, 1), (0x107b1, 1), (0x107bb, 69), (0x10806, 2), (0x10809, 1), (0x10836, 1), (0x10839, 3),
  (0x1083d, 2), (0x10856, 1), (0x1089f, 8), (0x108b0, 48), (0x108f3, 1), (0x108f6, 5), (0x1091c, 3),
  (0x1093a, 5), (0x1095a, 38), (0x109b8, 4), (0x109d0, 2), (0x10a01, 15), (0x10a14, 1),
  (0x10a18, 1), (0x10a36, 10), (0x10a49, 7), (0x10a59, 7), (0x10aa0, 32), (0x10ae5, 6),
  (0x10af7, 9), (0x10b36, 3), (0x10b56, 2), (0x10b73, 5), (0x10b92, 7), (0x10b9d, 12),
  (0x10bb0, 80), (0x10c49, 55), (0x10cb3, 13), (0x10cf3, 7), (0x10d24, 12), (0x10d3a, 6),
  (0x10d66, 8), (0x10d86, 8), (0x10d90, 208), (0x10e7f, 1), (0x10eaa, 3), (0x10eae, 2),
  (0x10eb2, 16), (0x10ec8, 8), (0x10ed9, 39), (0x10f28, 8), (0x10f46, 11), (0x10f5a, 22),
  (0x10f82, 4), (0x10f8a, 38), (0x10fcc, 20), (0x10ff7, 9), (0x11001, 1), (0x11038, 15),
  (0x1104e, 4), (0x11070, 1), (0x11073, 2), (0x11076, 12), (0x110b3, 4), (0x110b9, 2), (0x110bd, 1),
  (0x110c2, 14), (0x110e9, 7), (0x110fa, 9), (0x11127, 5), (0x1112d, 9), (0x11148, 8), (0x11173, 1),
  (0x11177, 11), (0x111b6, 9), (0x111c0, 1), (0x111c9, 4), (0x111cf, 1), (0x111e0, 1),
  (0x111f5, 11), (0x11212, 1), (0x1122f, 3), (0x11234, 4), (0x1123e, 1), (0x11241, 63),
  (0x11287, 1), (0x11289, 1), (0x1128e, 1), (0x1129e, 1), (0x112aa, 6), (0x112df, 1), (0x112e3, 13),
  (0x112fa, 8), (0x11304, 1), (0x1130d, 2), (0x11311, 2), (0x11329, 1), (0x11331, 1), (0x11334, 1),
  (0x1133a, 3), (0x1133e, 1), (0x11340, 1), (0x11345, 2), (0x11349, 2), (0x1134d, 3), (0x11351, 12),
  (0x11364, 28), (0x1138a, 1), (0x1138c, 2), (0x1138f, 1), (0x113b6, 1), (0x113b8, 1),
  (0x113bb, 15), (0x113cb, 1), (0x113ce, 3), (0x113d2, 1), (0x113d6, 1), (0x113d9, 39),
  (0x11438, 8), (0x11442, 3), (0x11446, 1), (0x1145c, 1), (0x1145e, 1), (0x11462, 30), (0x114b0, 1),
  (0x114b3, 6), (0x114ba, 1), (0x114bd, 1), (0x114bf, 2), (0x114c2, 2), (0x114c8, 8),
  (0x114da, 166), (0x115af, 1), (0x115b2, 6), (0x115bc, 2), (0x115bf, 2), (0x115dc, 36),
  (0x11633, 8), (0x1163d, 1), (0x1163f, 2), (0x11645, 11), (0x1165a, 6), (0x1166d, 19),
  (0x116ab, 1), (0x116ad, 1), (0x116b0, 8), (0x116ba, 6), (0x116ca, 6), (0x116e4, 28), (0x1171b, 3),
  (0x1171f, 1), (0x11722, 4), (0x11727, 9), (0x11747, 185), (0x1182f, 9), (0x11839, 2),
  (0x1183c, 100), (0x118f3, 12), (0x11907, 2), (0x1190a, 2), (0x11914, 1), (0x11917, 1),
  (0x11930, 1), (0x11936, 1), (0x11939, 6), (0x11943, 1), (0x11947, 9), (0x1195a, 70), (0x119a8, 2),
  (0x119d4, 8), (0x119e0, 1), (0x119e5, 27), (0x11a01, 10), (0x11a33, 6), (0x11a3b, 4),
  (0x11a47, 9), (0x11a51, 6), (0x11a59, 3), (0x11a8a, 13), (0x11a98, 2), (0x11aa3, 13),
  (0x11af9, 7), (0x11b0a, 87), (0x11b62, 3), (0x11b66, 1), (0x11b68, 88), (0x11be2, 14),
  (0x11bfa, 6), (0x11c09, 1), (0x11c30, 14), (0x11c3f, 1), (0x11c46, 10), (0x11c6d, 3),
  (0x11c90, 25), (0x11caa, 7), (0x11cb2, 2), (0x11cb5, 75), (0x11d07, 1), (0x11d0a, 1),
  (0x11d31, 21), (0x11d47, 9), (0x11d5a, 6), (0x11d66, 1), (0x11d69, 1), (0x11d8f, 4), (0x11d95, 1),
  (0x11d97, 1), (0x11d99, 7), (0x11daa, 6), (0x11ddc, 4), (0x11dea, 246), (0x11ef3, 2),
  (0x11ef9, 9), (0x11f11, 1), (0x11f36, 8), (0x11f40, 3), (0x11f5a, 86), (0x11fb1, 15),
  (0x11ff2, 13), (0x1239a, 102), (0x1246f, 1), (0x12475, 11), (0x12544, 2636), (0x12ff3, 13),
  (0x13430, 17), (0x13447, 25), (0x143fb, 5), (0x14647, 6841), (0x1611e, 12), (0x1612d, 3),
  (0x1613a, 1734), (0x16a39, 7), (0x16a5f, 1), (0x16a6a, 4), (0x16abf, 1), (0x16aca, 6),
  (0x16aee, 7), (0x16af6, 10), (0x16b30, 7), (0x16b46, 10), (0x16b5a, 1), (0x16b62, 1),
  (0x16b78, 5), (0x16b90, 432), (0x16d7a, 198), (0x16e9b, 5), (0x16eb9, 2), (0x16ed4, 44),
  (0x16f4b, 5), (0x16f88, 11), (0x16fa0, 64), (0x16fe4, 14), (0x16ff7, 9), (0x18cd6, 41),
  (0x18d1f, 97), (0x18df3, 8701), (0x1aff4, 1), (0x1affc, 1), (0x1afff, 1), (0x1b123, 15),
  (0x1b133, 29), (0x1b153, 2), (0x1b156, 14), (0x1b168, 8), (0x1b2fc, 2308), (0x1bc6b, 5),
  (0x1bc7d, 3), (0x1bc89, 7), (0x1bc9a, 2), (0x1bc9d, 2), (0x1bca0, 3936), (0x1ccfd, 3),
  (0x1ceb4, 6), (0x1ced1, 15), (0x1cef1, 95), (0x1cfc4, 60), (0x1d0f6, 10), (0x1d127, 2),
  (0x1d165, 5), (0x1d16d, 22), (0x1d185, 7), (0x1d1aa, 4), (0x1d1eb, 21), (0x1d242, 3),
  (0x1d246, 122), (0x1d2d4, 12), (0x1d2f4, 12), (0x1d357, 9), (0x1d379, 135), (0x1d455, 1),
  (0x1d49d, 1), (0x1d4a0, 2), (0x1d4a3, 2), (0x1d4a7, 2), (0x1d4ad, 1), (0x1d4ba, 1), (0x1d4bc, 1),
  (0x1d4c4, 1), (0x1d506, 1), (0x1d50b, 2), (0x1d515, 1), (0x1d51d, 1), (0x1d53a, 1), (0x1d53f, 1),
  (0x1d545, 1), (0x1d547, 3), (0x1d551, 1), (0x1d6a6, 2), (0x1d7cc, 2), (0x1da00, 55),
  (0x1da3b, 50), (0x1da75, 1), (0x1da84, 1), (0x1da8c, 1140), (0x1df1f, 6), (0x1df2b, 261),
  (0x1e06e, 146), (0x1e12d, 10), (0x1e13e, 2), (0x1e14a, 4), (0x1e150, 320), (0x1e2ae, 18),
  (0x1e2ec, 4), (0x1e2fa, 5), (0x1e300, 464), (0x1e4ec, 4), (0x1e4fa, 214), (0x1e5ee, 2),
  (0x1e5fb, 4), (0x1e600, 192), (0x1e6df, 1), (0x1e6e3, 1), (0x1e6e6, 1), (0x1e6ee, 2),
  (0x1e6f5, 9), (0x1e700, 224), (0x1e7e7, 1), (0x1e7ec, 1), (0x1e7ef, 1), (0x1e7ff, 1),
  (0x1e8c5, 2), (0x1e8d0, 48), (0x1e944, 7), (0x1e94c, 4), (0x1e95a, 4), (0x1e960, 785),
  (0x1ecb5, 76), (0x1ed3e, 194), (0x1ee04, 1), (0x1ee20, 1), (0x1ee23, 1), (0x1ee25, 2),
  (0x1ee28, 1), (0x1ee33, 1), (0x1ee38, 1), (0x1ee3a, 1), (0x1ee3c, 6), (0x1ee43, 4), (0x1ee48, 1),
  (0x1ee4a, 1), (0x1ee4c, 1), (0x1ee50, 1), (0x1ee53, 1), (0x1ee55, 2), (0x1ee58, 1), (0x1ee5a, 1),
  (0x1ee5c, 1), (0x1ee5e, 1), (0x1ee60, 1), (0x1ee63, 1), (0x1ee65, 2), (0x1ee6b, 1), (0x1ee73, 1),
  (0x1ee78, 1), (0x1ee7d, 1), (0x1ee7f, 1), (0x1ee8a, 1), (0x1ee9c, 5), (0x1eea4, 1), (0x1eeaa, 1),
  (0x1eebc, 52), (0x1eef2, 270), (0x1f02c, 4), (0x1f094, 12), (0x1f0af, 2), (0x1f0c0, 1),
  (0x1f0d0, 1), (0x1f0f6, 10), (0x1f1ae, 56), (0x1f203, 13), (0x1f23c, 4), (0x1f249, 7),
  (0x1f252, 14), (0x1f266, 154), (0x1f6d9, 3), (0x1f6ed, 3), (0x1f6fd, 3), (0x1f7da, 6),
  (0x1f7ec, 4), (0x1f7f1, 15), (0x1f80c, 4), (0x1f848, 8), (0x1f85a, 6), (0x1f888, 8), (0x1f8ae, 2),
  (0x1f8bc, 4), (0x1f8c2, 14), (0x1f8d9, 39), (0x1fa58, 8), (0x1fa6e, 2), (0x1fa7d, 3),
  (0x1fa8b, 3), (0x1fac7, 1), (0x1fac9, 4), (0x1fadd, 2), (0x1faeb, 4), (0x1faf9, 7), (0x1fb93, 1),
  (0x1fbfb, 1029), (0x2a6e0, 32), (0x2b81e, 2), (0x2ceae, 2), (0x2ebe1, 15), (0x2ee5e, 2466),
  (0x2fa1e, 1506), (0x3134b, 5), (0x3347a, 904070)]

def isHidden (c : Char) : Bool :=
  hasCode hiddenRanges c

def numberOf (c : Char) : List Char :=
  "\\u\x7b".toList ++ Nat.toDigits 16 c.toNat ++ ['\x7d']

/-- A character as it stands in a quotation: itself, or an escape if it does not show. -/
def shown (c : Char) : List Char :=
  match c with
  | '\\' => ['\\', c]
  | '\n' => ['\\', 'n']
  | '\r' => ['\\', 'r']
  | '\t' => ['\\', 't']
  | '\x00' => ['\\', '0']
  | c => if isHidden c then numberOf c else [c]

end RefSugar.Text
