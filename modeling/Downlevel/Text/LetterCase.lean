import Downlevel.Text.CodeRange

/-! # Letter case

The characters with the Unicode property `Lowercase`, and the full upper-case mapping, which may
turn one character into several. -/

namespace Downlevel.Text

def lowercaseRuns : List (Nat × Nat × Nat) :=
  [(97, 122, 1), (170, 170, 1), (181, 181, 1), (186, 186, 1), (223, 246, 1), (248, 255, 1),
   (257, 311, 2), (312, 328, 2), (329, 375, 2), (378, 382, 2), (383, 384, 1), (387, 389, 2),
   (392, 392, 1), (396, 397, 1), (402, 402, 1), (405, 405, 1), (409, 411, 1), (414, 414, 1),
   (417, 421, 2), (424, 426, 2), (427, 429, 2), (432, 432, 1), (436, 438, 2), (441, 442, 1),
   (445, 447, 1), (454, 454, 1), (457, 457, 1), (460, 476, 2), (477, 495, 2), (496, 496, 1),
   (499, 501, 2), (505, 563, 2), (564, 569, 1), (572, 572, 1), (575, 576, 1), (578, 578, 1),
   (583, 591, 2), (592, 659, 1), (662, 696, 1), (704, 705, 1), (736, 740, 1), (837, 837, 1),
   (881, 883, 2), (887, 887, 1), (890, 893, 1), (912, 912, 1), (940, 974, 1), (976, 977, 1),
   (981, 983, 1), (985, 1007, 2), (1008, 1011, 1), (1013, 1013, 1), (1016, 1016, 1),
   (1019, 1020, 1), (1072, 1119, 1), (1121, 1153, 2), (1163, 1215, 2), (1218, 1230, 2),
   (1231, 1327, 2), (1376, 1416, 1), (4304, 4346, 1), (4348, 4351, 1), (5112, 5117, 1),
   (7296, 7304, 1), (7306, 7306, 1), (7424, 7615, 1), (7681, 7829, 2), (7830, 7837, 1),
   (7839, 7935, 2), (7936, 7943, 1), (7952, 7957, 1), (7968, 7975, 1), (7984, 7991, 1),
   (8000, 8005, 1), (8016, 8023, 1), (8032, 8039, 1), (8048, 8061, 1), (8064, 8071, 1),
   (8080, 8087, 1), (8096, 8103, 1), (8112, 8116, 1), (8118, 8119, 1), (8126, 8126, 1),
   (8130, 8132, 1), (8134, 8135, 1), (8144, 8147, 1), (8150, 8151, 1), (8160, 8167, 1),
   (8178, 8180, 1), (8182, 8183, 1), (8305, 8305, 1), (8319, 8319, 1), (8336, 8348, 1),
   (8458, 8458, 1), (8462, 8463, 1), (8467, 8467, 1), (8495, 8495, 1), (8500, 8500, 1),
   (8505, 8505, 1), (8508, 8509, 1), (8518, 8521, 1), (8526, 8526, 1), (8560, 8575, 1),
   (8580, 8580, 1), (9424, 9449, 1), (11312, 11359, 1), (11361, 11361, 1), (11365, 11366, 1),
   (11368, 11372, 2), (11377, 11379, 2), (11380, 11382, 2), (11383, 11389, 1), (11393, 11491, 2),
   (11492, 11492, 1), (11500, 11502, 2), (11507, 11507, 1), (11520, 11557, 1), (11559, 11559, 1),
   (11565, 11565, 1), (42561, 42605, 2), (42625, 42651, 2), (42652, 42653, 1), (42787, 42799, 2),
   (42800, 42801, 1), (42803, 42863, 2), (42864, 42872, 1), (42874, 42876, 2), (42879, 42887, 2),
   (42892, 42894, 2), (42897, 42899, 2), (42900, 42901, 1), (42903, 42921, 2), (42927, 42927, 1),
   (42933, 42947, 2), (42952, 42954, 2), (42957, 42971, 2), (42993, 42996, 1), (42998, 43000, 2),
   (43001, 43002, 1), (43824, 43866, 1), (43868, 43881, 1), (43888, 43967, 1), (64256, 64262, 1),
   (64275, 64279, 1), (65345, 65370, 1), (66600, 66639, 1), (66776, 66811, 1), (66967, 66977, 1),
   (66979, 66993, 1), (66995, 67001, 1), (67003, 67004, 1), (67456, 67456, 1), (67459, 67461, 1),
   (67463, 67504, 1), (67506, 67514, 1), (68800, 68850, 1), (68976, 68997, 1), (71872, 71903, 1),
   (93792, 93823, 1), (93883, 93907, 1), (119834, 119859, 1), (119886, 119892, 1),
   (119894, 119911, 1), (119938, 119963, 1), (119990, 119993, 1), (119995, 119997, 2),
   (119998, 120003, 1), (120005, 120015, 1), (120042, 120067, 1), (120094, 120119, 1),
   (120146, 120171, 1), (120198, 120223, 1), (120250, 120275, 1), (120302, 120327, 1),
   (120354, 120379, 1), (120406, 120431, 1), (120458, 120485, 1), (120514, 120538, 1),
   (120540, 120545, 1), (120572, 120596, 1), (120598, 120603, 1), (120630, 120654, 1),
   (120656, 120661, 1), (120688, 120712, 1), (120714, 120719, 1), (120746, 120770, 1),
   (120772, 120777, 1), (120779, 120779, 1), (122624, 122633, 1), (122635, 122654, 1),
   (122661, 122666, 1), (122928, 122989, 1), (125218, 125251, 1)]

def isLowercase (c : Char) : Bool := inRuns lowercaseRuns c

/-- A run of code points that go to upper case by the same distance; `upper` is where the first of
them goes. -/
structure CaseRun where
  lower : Nat × Nat × Nat
  upper : Nat

def caseRuns : List CaseRun :=
  [⟨(97, 122, 1), 65⟩, ⟨(181, 181, 1), 924⟩, ⟨(224, 246, 1), 192⟩, ⟨(248, 254, 1), 216⟩,
   ⟨(255, 255, 1), 376⟩, ⟨(257, 303, 2), 256⟩, ⟨(305, 305, 1), 73⟩, ⟨(307, 311, 2), 306⟩,
   ⟨(314, 328, 2), 313⟩, ⟨(331, 375, 2), 330⟩, ⟨(378, 382, 2), 377⟩, ⟨(383, 383, 1), 83⟩,
   ⟨(384, 384, 1), 579⟩, ⟨(387, 389, 2), 386⟩, ⟨(392, 392, 1), 391⟩, ⟨(396, 396, 1), 395⟩,
   ⟨(402, 402, 1), 401⟩, ⟨(405, 405, 1), 502⟩, ⟨(409, 409, 1), 408⟩, ⟨(410, 410, 1), 573⟩,
   ⟨(411, 411, 1), 42972⟩, ⟨(414, 414, 1), 544⟩, ⟨(417, 421, 2), 416⟩, ⟨(424, 424, 1), 423⟩,
   ⟨(429, 429, 1), 428⟩, ⟨(432, 432, 1), 431⟩, ⟨(436, 438, 2), 435⟩, ⟨(441, 441, 1), 440⟩,
   ⟨(445, 445, 1), 444⟩, ⟨(447, 447, 1), 503⟩, ⟨(453, 453, 1), 452⟩, ⟨(454, 454, 1), 452⟩,
   ⟨(456, 456, 1), 455⟩, ⟨(457, 457, 1), 455⟩, ⟨(459, 459, 1), 458⟩, ⟨(460, 460, 1), 458⟩,
   ⟨(462, 476, 2), 461⟩, ⟨(477, 477, 1), 398⟩, ⟨(479, 495, 2), 478⟩, ⟨(498, 498, 1), 497⟩,
   ⟨(499, 499, 1), 497⟩, ⟨(501, 501, 1), 500⟩, ⟨(505, 543, 2), 504⟩, ⟨(547, 563, 2), 546⟩,
   ⟨(572, 572, 1), 571⟩, ⟨(575, 576, 1), 11390⟩, ⟨(578, 578, 1), 577⟩, ⟨(583, 591, 2), 582⟩,
   ⟨(592, 592, 1), 11375⟩, ⟨(593, 593, 1), 11373⟩, ⟨(594, 594, 1), 11376⟩, ⟨(595, 595, 1), 385⟩,
   ⟨(596, 596, 1), 390⟩, ⟨(598, 599, 1), 393⟩, ⟨(601, 601, 1), 399⟩, ⟨(603, 603, 1), 400⟩,
   ⟨(604, 604, 1), 42923⟩, ⟨(608, 608, 1), 403⟩, ⟨(609, 609, 1), 42924⟩, ⟨(611, 611, 1), 404⟩,
   ⟨(612, 612, 1), 42955⟩, ⟨(613, 613, 1), 42893⟩, ⟨(614, 614, 1), 42922⟩, ⟨(616, 616, 1), 407⟩,
   ⟨(617, 617, 1), 406⟩, ⟨(618, 618, 1), 42926⟩, ⟨(619, 619, 1), 11362⟩, ⟨(620, 620, 1), 42925⟩,
   ⟨(623, 623, 1), 412⟩, ⟨(625, 625, 1), 11374⟩, ⟨(626, 626, 1), 413⟩, ⟨(629, 629, 1), 415⟩,
   ⟨(637, 637, 1), 11364⟩, ⟨(640, 640, 1), 422⟩, ⟨(642, 642, 1), 42949⟩, ⟨(643, 643, 1), 425⟩,
   ⟨(647, 647, 1), 42929⟩, ⟨(648, 648, 1), 430⟩, ⟨(649, 649, 1), 580⟩, ⟨(650, 651, 1), 433⟩,
   ⟨(652, 652, 1), 581⟩, ⟨(658, 658, 1), 439⟩, ⟨(669, 669, 1), 42930⟩, ⟨(670, 670, 1), 42928⟩,
   ⟨(837, 837, 1), 921⟩, ⟨(881, 883, 2), 880⟩, ⟨(887, 887, 1), 886⟩, ⟨(891, 893, 1), 1021⟩,
   ⟨(940, 940, 1), 902⟩, ⟨(941, 943, 1), 904⟩, ⟨(945, 961, 1), 913⟩, ⟨(962, 962, 1), 931⟩,
   ⟨(963, 971, 1), 931⟩, ⟨(972, 972, 1), 908⟩, ⟨(973, 974, 1), 910⟩, ⟨(976, 976, 1), 914⟩,
   ⟨(977, 977, 1), 920⟩, ⟨(981, 981, 1), 934⟩, ⟨(982, 982, 1), 928⟩, ⟨(983, 983, 1), 975⟩,
   ⟨(985, 1007, 2), 984⟩, ⟨(1008, 1008, 1), 922⟩, ⟨(1009, 1009, 1), 929⟩, ⟨(1010, 1010, 1), 1017⟩,
   ⟨(1011, 1011, 1), 895⟩, ⟨(1013, 1013, 1), 917⟩, ⟨(1016, 1016, 1), 1015⟩, ⟨(1019, 1019, 1), 1018⟩,
   ⟨(1072, 1103, 1), 1040⟩, ⟨(1104, 1119, 1), 1024⟩, ⟨(1121, 1153, 2), 1120⟩,
   ⟨(1163, 1215, 2), 1162⟩, ⟨(1218, 1230, 2), 1217⟩, ⟨(1231, 1231, 1), 1216⟩,
   ⟨(1233, 1327, 2), 1232⟩, ⟨(1377, 1414, 1), 1329⟩, ⟨(4304, 4346, 1), 7312⟩,
   ⟨(4349, 4351, 1), 7357⟩, ⟨(5112, 5117, 1), 5104⟩, ⟨(7296, 7296, 1), 1042⟩,
   ⟨(7297, 7297, 1), 1044⟩, ⟨(7298, 7298, 1), 1054⟩, ⟨(7299, 7300, 1), 1057⟩,
   ⟨(7301, 7301, 1), 1058⟩, ⟨(7302, 7302, 1), 1066⟩, ⟨(7303, 7303, 1), 1122⟩,
   ⟨(7304, 7304, 1), 42570⟩, ⟨(7306, 7306, 1), 7305⟩, ⟨(7545, 7545, 1), 42877⟩,
   ⟨(7549, 7549, 1), 11363⟩, ⟨(7566, 7566, 1), 42950⟩, ⟨(7681, 7829, 2), 7680⟩,
   ⟨(7835, 7835, 1), 7776⟩, ⟨(7841, 7935, 2), 7840⟩, ⟨(7936, 7943, 1), 7944⟩,
   ⟨(7952, 7957, 1), 7960⟩, ⟨(7968, 7975, 1), 7976⟩, ⟨(7984, 7991, 1), 7992⟩,
   ⟨(8000, 8005, 1), 8008⟩, ⟨(8017, 8023, 2), 8025⟩, ⟨(8032, 8039, 1), 8040⟩,
   ⟨(8048, 8049, 1), 8122⟩, ⟨(8050, 8053, 1), 8136⟩, ⟨(8054, 8055, 1), 8154⟩,
   ⟨(8056, 8057, 1), 8184⟩, ⟨(8058, 8059, 1), 8170⟩, ⟨(8060, 8061, 1), 8186⟩,
   ⟨(8112, 8113, 1), 8120⟩, ⟨(8126, 8126, 1), 921⟩, ⟨(8144, 8145, 1), 8152⟩,
   ⟨(8160, 8161, 1), 8168⟩, ⟨(8165, 8165, 1), 8172⟩, ⟨(8526, 8526, 1), 8498⟩,
   ⟨(8560, 8575, 1), 8544⟩, ⟨(8580, 8580, 1), 8579⟩, ⟨(9424, 9449, 1), 9398⟩,
   ⟨(11312, 11359, 1), 11264⟩, ⟨(11361, 11361, 1), 11360⟩, ⟨(11365, 11365, 1), 570⟩,
   ⟨(11366, 11366, 1), 574⟩, ⟨(11368, 11372, 2), 11367⟩, ⟨(11379, 11379, 1), 11378⟩,
   ⟨(11382, 11382, 1), 11381⟩, ⟨(11393, 11491, 2), 11392⟩, ⟨(11500, 11502, 2), 11499⟩,
   ⟨(11507, 11507, 1), 11506⟩, ⟨(11520, 11557, 1), 4256⟩, ⟨(11559, 11559, 1), 4295⟩,
   ⟨(11565, 11565, 1), 4301⟩, ⟨(42561, 42605, 2), 42560⟩, ⟨(42625, 42651, 2), 42624⟩,
   ⟨(42787, 42799, 2), 42786⟩, ⟨(42803, 42863, 2), 42802⟩, ⟨(42874, 42876, 2), 42873⟩,
   ⟨(42879, 42887, 2), 42878⟩, ⟨(42892, 42892, 1), 42891⟩, ⟨(42897, 42899, 2), 42896⟩,
   ⟨(42900, 42900, 1), 42948⟩, ⟨(42903, 42921, 2), 42902⟩, ⟨(42933, 42947, 2), 42932⟩,
   ⟨(42952, 42954, 2), 42951⟩, ⟨(42957, 42971, 2), 42956⟩, ⟨(42998, 42998, 1), 42997⟩,
   ⟨(43859, 43859, 1), 42931⟩, ⟨(43888, 43967, 1), 5024⟩, ⟨(65345, 65370, 1), 65313⟩,
   ⟨(66600, 66639, 1), 66560⟩, ⟨(66776, 66811, 1), 66736⟩, ⟨(66967, 66977, 1), 66928⟩,
   ⟨(66979, 66993, 1), 66940⟩, ⟨(66995, 67001, 1), 66956⟩, ⟨(67003, 67004, 1), 66964⟩,
   ⟨(68800, 68850, 1), 68736⟩, ⟨(68976, 68997, 1), 68944⟩, ⟨(71872, 71903, 1), 71840⟩,
   ⟨(93792, 93823, 1), 93760⟩, ⟨(93883, 93907, 1), 93856⟩, ⟨(125218, 125251, 1), 125184⟩]

def caseExpansions : List (Nat × List Nat) :=
  [(223, [83, 83]), (329, [700, 78]), (496, [74, 780]), (912, [921, 776, 769]),
   (944, [933, 776, 769]), (1415, [1333, 1362]), (7830, [72, 817]), (7831, [84, 776]),
   (7832, [87, 778]), (7833, [89, 778]), (7834, [65, 702]), (8016, [933, 787]),
   (8018, [933, 787, 768]), (8020, [933, 787, 769]), (8022, [933, 787, 834]), (8064, [7944, 921]),
   (8065, [7945, 921]), (8066, [7946, 921]), (8067, [7947, 921]), (8068, [7948, 921]),
   (8069, [7949, 921]), (8070, [7950, 921]), (8071, [7951, 921]), (8072, [7944, 921]),
   (8073, [7945, 921]), (8074, [7946, 921]), (8075, [7947, 921]), (8076, [7948, 921]),
   (8077, [7949, 921]), (8078, [7950, 921]), (8079, [7951, 921]), (8080, [7976, 921]),
   (8081, [7977, 921]), (8082, [7978, 921]), (8083, [7979, 921]), (8084, [7980, 921]),
   (8085, [7981, 921]), (8086, [7982, 921]), (8087, [7983, 921]), (8088, [7976, 921]),
   (8089, [7977, 921]), (8090, [7978, 921]), (8091, [7979, 921]), (8092, [7980, 921]),
   (8093, [7981, 921]), (8094, [7982, 921]), (8095, [7983, 921]), (8096, [8040, 921]),
   (8097, [8041, 921]), (8098, [8042, 921]), (8099, [8043, 921]), (8100, [8044, 921]),
   (8101, [8045, 921]), (8102, [8046, 921]), (8103, [8047, 921]), (8104, [8040, 921]),
   (8105, [8041, 921]), (8106, [8042, 921]), (8107, [8043, 921]), (8108, [8044, 921]),
   (8109, [8045, 921]), (8110, [8046, 921]), (8111, [8047, 921]), (8114, [8122, 921]),
   (8115, [913, 921]), (8116, [902, 921]), (8118, [913, 834]), (8119, [913, 834, 921]),
   (8124, [913, 921]), (8130, [8138, 921]), (8131, [919, 921]), (8132, [905, 921]),
   (8134, [919, 834]), (8135, [919, 834, 921]), (8140, [919, 921]), (8146, [921, 776, 768]),
   (8147, [921, 776, 769]), (8150, [921, 834]), (8151, [921, 776, 834]), (8162, [933, 776, 768]),
   (8163, [933, 776, 769]), (8164, [929, 787]), (8166, [933, 834]), (8167, [933, 776, 834]),
   (8178, [8186, 921]), (8179, [937, 921]), (8180, [911, 921]), (8182, [937, 834]),
   (8183, [937, 834, 921]), (8188, [937, 921]), (64256, [70, 70]), (64257, [70, 73]),
   (64258, [70, 76]), (64259, [70, 70, 73]), (64260, [70, 70, 76]), (64261, [83, 84]),
   (64262, [83, 84]), (64275, [1348, 1350]), (64276, [1348, 1333]), (64277, [1348, 1339]),
   (64278, [1358, 1350]), (64279, [1348, 1341])]

def upperCase (c : Char) : List Char :=
  match caseRuns.find? (fun run => inRun run.lower c) with
  | some run => [Char.ofNat (c.toNat - run.lower.1 + run.upper)]
  | none =>
    match caseExpansions.find? (fun entry => entry.1 == c.toNat) with
    | some entry => entry.2.map Char.ofNat
    | none => [c]

end Downlevel.Text
