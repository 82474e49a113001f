/-! # Case mappings beyond ASCII

A run of code points whose images lie at one distance is one entry. The expansions are the upper-case
images of more than one character. The last two tables decide the form of a final sigma; their runs
are given by distances and lengths, as those of word characters. All follow version 17 of the Unicode
character database.
-/

namespace ViewTemplate.Text

/-- The code points `lo`, `lo + step`, up to `hi`, each mapped to the one `delta` away. -/
structure CaseRun where
  lo : Nat
  hi : Nat
  step : Nat
  delta : Int

/-- The runs of capitals that a run of small letters is mapped to, with the way back. -/
def CaseRun.inverse (r : CaseRun) : CaseRun :=
  ⟨(r.lo + r.delta).toNat, (r.hi + r.delta).toNat, r.step, -r.delta⟩

/-- Runs of one step and distance, each given by its distance from the end of the one before it and by
its length. -/
def CaseRun.family (step : Nat) (delta : Int) : Nat → List Nat → List CaseRun
  | last, gap :: length :: runs =>
    let run : CaseRun := ⟨last + gap, last + gap + (length - 1) * step, step, delta⟩
    run :: family step delta run.hi runs
  | _, _ => []

/-- The runs of one step, by their distances. -/
def caseRuns (step : Nat) (families : List (Int × List Nat)) : List CaseRun :=
  families.flatMap fun (delta, runs) => CaseRun.family step delta 0 runs

/-- Small letters whose capitals are mapped back to them. -/
def pairedRuns : List CaseRun := caseRuns 1 [
  (8, [7936,8,9,6,11,8,9,8,9,6,27,8,73,2,31,2,15,2]), (-32, [224,23,2,7,691,17,2,9,101,32,64242,26,
  3606,22,2875,32,21889,32]), (-2, [454,1,3,1,3,1,39,1]), (-39, [66967,11,2,15,2,7,2,2]),
  (-218, [640,1,3,1,5,1]), (-7264, [11520,38,2,1,6,1]), (130, [414,1,477,3]), (-205, [598,2,9,1]),
  (42308, [614,1,4,1]), (-211, [617,1,6,1]), (-64, [972,1,67828,51]), (-8, [983,1,4129,6]),
  (7, [1010,1,7155,1]), (-48, [1377,38,9898,48]), (3008, [4304,43,3,3]), (-40, [66600,40,137,36]),
  (121, [255,1]), (195, [384,1]), (97, [405,1]), (163, [410,1]), (42561, [411,1]), (56, [447,1]),
  (-79, [477,1]), (10815, [575,2]), (10783, [592,1]), (10780, [593,1]), (10782, [594,1]),
  (-210, [595,1]), (-206, [596,1]), (-202, [601,1]), (-203, [603,1]), (42319, [604,1]),
  (42315, [609,1]), (-207, [611,1]), (42343, [612,1]), (42280, [613,1]), (-209, [616,1]),
  (10743, [619,1]), (42305, [620,1]), (10749, [625,1]), (-213, [626,1]), (-214, [629,1]),
  (10727, [637,1]), (42307, [642,1]), (42282, [647,1]), (-69, [649,1]), (-217, [650,2]),
  (-71, [652,1]), (-219, [658,1]), (42261, [669,1]), (42258, [670,1]), (-38, [940,1]),
  (-37, [941,3]), (-63, [973,2]), (-116, [1011,1]), (-80, [1104,16]), (-15, [1231,1]),
  (35332, [7545,1]), (3814, [7549,1]), (35384, [7566,1]), (74, [8048,2]), (86, [8050,4]),
  (100, [8054,2]), (128, [8056,2]), (112, [8058,2]), (126, [8060,2]), (-28, [8526,1]),
  (-16, [8560,16]), (-26, [9424,26]), (-10795, [11365,1]), (-10792, [11366,1]), (48, [42900,1]),
  (-928, [43859,1]), (-38864, [43888,80]), (-27, [93883,25]), (-34, [125218,34])] ++ caseRuns 2 [
  (-1, [257,24,4,3,3,8,3,23,3,3,5,2,3,1,4,1,6,1,7,1,8,3,3,1,5,1,3,1,4,2,3,1,4,1,17,8,3,9,6,1,4,20,4,
  9,9,1,6,1,5,5,290,2,4,1,98,12,9,1,3,1,102,17,10,27,3,7,3,48,5979,1,375,75,12,48,645,1,2781,1,7,3,
  7,1,3,1,11,50,9,2,5,1,31054,23,20,14,136,7,4,31,11,2,3,5,5,1,5,2,4,10,12,8,5,2,3,8,27,1]),
  (8, [8017,4])]

def upperRuns : List CaseRun := pairedRuns ++ caseRuns 1 [
  (-1, [453,1,3,1,3,1,39,1]), (743, [181,1]), (-232, [305,1]), (-300, [383,1]), (84, [837,1]),
  (-31, [962,1]), (-62, [976,1]), (-57, [977,1]), (-47, [981,1]), (-54, [982,1]), (-86, [1008,1]),
  (-80, [1009,1]), (-96, [1013,1]), (-6254, [7296,1]), (-6253, [7297,1]), (-6244, [7298,1]),
  (-6242, [7299,2]), (-6243, [7301,1]), (-6236, [7302,1]), (-6181, [7303,1]), (35266, [7304,1]),
  (-59, [7835,1]), (-7205, [8126,1])]

def lowerRuns : List CaseRun := pairedRuns.map CaseRun.inverse ++ caseRuns 1 [
  (1, [453,1,3,1,3,1,39,1]), (-8, [8072,8,9,8,9,8]), (-9, [8124,1,16,1,48,1]), (-60, [1012,1]),
  (-7615, [7838,1]), (-7517, [8486,1]), (-8383, [8490,1]), (-8262, [8491,1])]

/-- Greek vowels with an iota below, small ones and capitals. -/
def iotaExpansions : List (Nat × List Nat) :=
  [(8064, 7944), (8080, 7976), (8096, 8040)].flatMap fun (first, capital) =>
    (List.range 16).map fun k => (first + k, [capital + k % 8, 921])

def upperExpansions : List (Nat × List Nat) := iotaExpansions ++ [
  (223, [83, 83]), (329, [700, 78]), (496, [74, 780]), (912, [921, 776, 769]),
  (944, [933, 776, 769]), (1415, [1333, 1362]), (7830, [72, 817]), (7831, [84, 776]),
  (7832, [87, 778]), (7833, [89, 778]), (7834, [65, 702]), (8016, [933, 787]),
  (8018, [933, 787, 768]), (8020, [933, 787, 769]), (8022, [933, 787, 834]), (8114, [8122, 921]),
  (8115, [913, 921]), (8116, [902, 921]), (8118, [913, 834]), (8119, [913, 834, 921]),
  (8124, [913, 921]), (8130, [8138, 921]), (8131, [919, 921]), (8132, [905, 921]),
  (8134, [919, 834]), (8135, [919, 834, 921]), (8140, [919, 921]), (8146, [921, 776, 768]),
  (8147, [921, 776, 769]), (8150, [921, 834]), (8151, [921, 776, 834]), (8162, [933, 776, 768]),
  (8163, [933, 776, 769]), (8164, [929, 787]), (8166, [933, 834]), (8167, [933, 776, 834]),
  (8178, [8186, 921]), (8179, [937, 921]), (8180, [911, 921]), (8182, [937, 834]),
  (8183, [937, 834, 921]), (8188, [937, 921]), (64256, [70, 70]), (64257, [70, 73]),
  (64258, [70, 76]), (64259, [70, 70, 73]), (64260, [70, 70, 76]), (64261, [83, 84]),
  (64262, [83, 84]), (64275, [1348, 1350]), (64276, [1348, 1333]), (64277, [1348, 1339]),
  (64278, [1358, 1350]), (64279, [1348, 1341])]

/-- Characters that have a case. -/
def casedRuns : List Nat := [
  65,26,6,26,47,1,10,1,4,1,5,23,1,31,1,195,1,4,4,208,2,35,7,2,30,5,96,1,42,4,2,2,2,4,1,1,6,1,1,3,1,
  1,1,20,1,83,1,139,8,166,1,38,9,41,2839,38,1,1,5,1,2,43,1,4,672,86,2,6,2178,11,5,43,2,3,64,192,64,
  278,2,6,2,38,2,6,2,8,1,1,1,1,1,1,1,31,2,53,1,7,1,1,3,3,1,7,3,4,2,6,4,13,5,3,1,7,116,1,13,1,16,13,
  101,1,4,1,2,10,1,1,3,5,6,1,1,1,1,1,1,4,1,6,4,1,2,4,5,5,4,1,17,32,3,2,817,52,1814,229,6,4,3,2,12,
  38,1,1,5,1,30994,46,18,30,132,102,3,4,1,77,20,6,1,3,821,43,1,14,6,80,20288,7,12,5,1033,26,6,26,
  1189,80,96,36,4,36,116,11,1,15,1,7,1,2,1,11,1,15,1,7,1,2,451,1,2,3,1,42,1,9,1221,51,13,51,93,22,
  10,22,2842,64,21856,64,32,25,2,25,25900,85,1,71,1,2,2,1,2,2,2,4,1,12,1,1,1,7,1,65,1,4,2,8,1,7,1,
  28,1,4,1,5,1,1,3,7,1,340,2,25,1,25,1,31,1,25,1,31,1,25,1,31,1,25,1,31,1,25,1,8,1844,10,1,20,6,6,
  261,62,2194,68,2028,26,6,26,6,26]

/-- Characters that are passed over when the surroundings of a sigma are examined. -/
def caseIgnorableRuns : List Nat := [
  39,1,6,1,11,1,35,1,1,1,71,1,4,1,1,1,4,1,2,2,503,192,4,2,4,1,9,2,1,1,251,7,207,1,5,1,49,45,1,1,1,2,
  1,2,1,1,44,1,11,6,10,11,1,1,35,1,10,21,16,1,101,8,1,10,1,4,33,1,1,1,30,27,91,11,58,11,4,1,2,1,24,
  24,43,3,44,1,7,2,5,9,41,58,55,1,1,1,4,8,4,1,3,7,10,2,13,1,15,1,58,1,4,4,8,1,20,2,26,1,2,2,57,1,4,
  2,4,2,2,3,3,1,30,2,3,1,11,2,57,1,4,5,1,2,4,1,20,2,22,6,1,1,58,1,2,1,1,4,8,1,7,2,11,2,30,1,61,1,12,
  1,50,1,3,1,55,1,1,3,5,3,1,4,7,2,11,2,29,1,58,1,2,1,6,1,5,2,20,2,28,2,57,2,4,4,8,1,20,2,29,1,72,1,
  7,3,1,1,90,1,2,7,11,9,98,1,2,9,9,1,1,7,73,2,27,1,1,1,1,1,55,14,1,5,1,2,5,11,1,36,9,1,102,4,1,6,1,
  2,2,2,25,2,4,3,16,4,13,1,2,2,6,1,15,1,94,1,608,3,946,3,29,2,30,2,30,2,64,2,1,7,8,1,2,11,3,1,5,1,
  45,5,51,1,65,2,34,1,118,3,4,2,9,1,6,3,219,2,2,1,58,1,1,7,1,1,1,1,2,8,6,10,2,1,39,1,8,46,2,12,20,4,
  48,1,1,5,1,1,5,1,40,9,12,2,32,4,2,2,1,3,56,1,1,2,3,1,1,3,58,8,2,2,64,6,82,3,1,13,1,7,4,1,6,1,3,2,
  50,63,13,1,34,101,445,1,1,3,11,3,13,3,13,3,13,2,12,5,8,2,10,1,2,1,2,5,49,5,1,10,1,1,13,1,16,13,51,
  33,2955,2,113,3,125,1,15,1,96,32,47,1,469,1,36,4,3,5,5,1,93,6,93,3,28438,1,1250,6,270,1,98,4,1,10,
  1,1,28,4,80,2,14,34,78,1,23,3,102,4,3,2,8,1,3,1,4,1,25,2,5,1,151,2,26,18,13,1,38,8,25,11,46,3,48,
  1,2,4,2,2,17,1,21,2,66,6,2,2,2,2,12,1,8,1,35,1,11,1,51,1,1,3,2,2,5,2,1,1,27,1,14,2,5,2,1,1,100,5,
  9,3,121,1,2,1,4,1,20272,1,147,17,573,16,3,1,12,16,34,1,2,1,169,1,7,1,6,1,11,1,35,1,1,1,47,1,45,2,
  67,1,21,3,513,1,226,1,149,5,1029,6,1,42,1,9,582,3,1,2,5,4,40,3,4,1,165,2,573,4,38,1,26,5,1,1,315,
  2,24,1,52,6,70,11,49,4,123,1,54,15,41,1,2,2,10,3,49,4,2,2,2,1,4,1,10,1,50,3,36,5,1,8,62,1,12,2,52,
  9,10,4,2,1,95,3,2,1,1,2,6,1,2,1,157,1,3,8,21,2,57,2,3,1,37,7,3,5,70,6,13,1,1,1,1,1,14,2,85,8,2,3,
  1,1,23,1,84,6,1,1,4,2,1,2,238,4,6,2,1,2,27,2,85,8,2,1,1,2,106,1,1,1,2,6,1,1,101,1,1,1,2,4,1,5,259,
  9,1,2,256,2,1,1,4,1,144,4,2,2,4,1,32,10,40,6,2,4,8,1,9,6,2,3,46,13,1,2,198,1,1,3,1,1,201,7,1,6,1,
  1,82,22,2,7,1,2,1,2,122,6,3,1,1,2,1,7,1,1,72,2,3,1,1,1,65,1,281,2,11,2,52,5,5,1,1,1,23,1,5333,17,
  6,15,11464,12,3,3,2496,5,59,7,9,4,508,3,40,2,482,1,63,17,64,2,1,2,13,2,16380,4,1,7,1,2,3230,2,1,4,
  4700,46,2,23,544,3,9,16,2,7,30,4,148,3,1979,55,4,50,8,1,14,1,22,5,1,15,1360,7,1,17,2,7,1,2,1,5,5,
  62,33,1,160,14,368,1,61,4,507,5,254,2,243,1,2,1,7,2,5,1,9,1,464,7,109,8,2735,5,789505,1,30,96,128,
  240]

end ViewTemplate.Text
