import Timetable.Clock.Zone

namespace Timetable

namespace Zone

def alternating (a b : Int) : List Int → List OffsetChange
  | [] => []
  | s :: ss => ⟨s, a⟩ :: alternating b a ss

def europeanSeconds : List Int :=
  [1269738000, 1288486800, 1301187600, 1319936400, 1332637200, 1351386000, 1364691600,
    1382835600, 1396141200, 1414285200, 1427590800, 1445734800, 1459040400, 1477789200,
    1490490000, 1509238800, 1521939600, 1540688400, 1553994000, 1572138000, 1585443600,
    1603587600, 1616893200, 1635642000, 1648342800, 1667091600, 1679792400, 1698541200,
    1711846800, 1729990800, 1743296400, 1761440400, 1774746000, 1792890000]

def newYorkSeconds : List Int :=
  [1268550000, 1289109600, 1299999600, 1320559200, 1331449200, 1352008800, 1362898800,
    1383458400, 1394348400, 1414908000, 1425798000, 1446357600, 1457852400, 1478412000,
    1489302000, 1509861600, 1520751600, 1541311200, 1552201200, 1572760800, 1583650800,
    1604210400, 1615705200, 1636264800, 1647154800, 1667714400, 1678604400, 1699164000,
    1710054000, 1730613600, 1741503600, 1762063200, 1772953200, 1793512800]

def stJohnsSeconds : List Int :=
  [1268537460, 1289097060, 1299987060, 1320553800, 1331443800, 1352003400, 1362893400,
    1383453000, 1394343000, 1414902600, 1425792600, 1446352200, 1457847000, 1478406600,
    1489296600, 1509856200, 1520746200, 1541305800, 1552195800, 1572755400, 1583645400,
    1604205000, 1615699800, 1636259400, 1647149400, 1667709000, 1678599000, 1699158600,
    1710048600, 1730608200, 1741498200, 1762057800, 1772947800, 1793507400]

def saoPauloSeconds : List Int :=
  [1266717600, 1287284400, 1298167200, 1318734000, 1330221600, 1350788400, 1361066400,
    1382238000, 1392516000, 1413687600, 1424570400, 1445137200, 1456020000, 1476586800,
    1487469600, 1508036400, 1518919200, 1541300400, 1550368800]

def lordHoweSeconds : List Int :=
  [1270306800, 1286033400, 1301756400, 1317483000, 1333206000, 1349537400, 1365260400,
    1380987000, 1396710000, 1412436600, 1428159600, 1443886200, 1459609200, 1475335800,
    1491058800, 1506785400, 1522508400, 1538839800, 1554562800, 1570289400, 1586012400,
    1601739000, 1617462000, 1633188600, 1648911600, 1664638200, 1680361200, 1696087800,
    1712415600, 1728142200, 1743865200, 1759591800, 1775314800, 1791041400]

def tehranSeconds : List Int :=
  [1269203400, 1285097400, 1300739400, 1316633400, 1332275400, 1348169400, 1363897800,
    1379791800, 1395433800, 1411327800, 1426969800, 1442863800, 1458505800, 1474399800,
    1490128200, 1506022200, 1521664200, 1537558200, 1553200200, 1569094200, 1584736200,
    1600630200, 1616358600, 1632252600, 1647894600, 1663788600]

def europeKyiv : Zone :=
  { name := "Europe/Kyiv", base := 7200, changes := alternating 10800 7200 europeanSeconds }

def europeKiev : Zone :=
  { name := "Europe/Kiev", base := 7200, changes := alternating 10800 7200 europeanSeconds }

def europeLondon : Zone :=
  { name := "Europe/London", base := 0, changes := alternating 3600 0 europeanSeconds }

def americaNewYork : Zone where
  name := "America/New_York"
  base := -18000
  changes := alternating (-14400) (-18000) newYorkSeconds

def americaStJohns : Zone where
  name := "America/St_Johns"
  base := -12600
  changes := alternating (-9000) (-12600) stJohnsSeconds

def americaSaoPaulo : Zone where
  name := "America/Sao_Paulo"
  base := -7200
  changes := alternating (-10800) (-7200) saoPauloSeconds

def australiaLordHowe : Zone where
  name := "Australia/Lord_Howe"
  base := 39600
  changes := alternating 37800 39600 lordHoweSeconds

def antarcticaTroll : Zone :=
  { name := "Antarctica/Troll", base := 0, changes := alternating 7200 0 europeanSeconds }

def pacificApia : Zone where
  name := "Pacific/Apia"
  base := -39600
  changes :=
    [⟨1285498800, -36000⟩, ⟨1301752800, -39600⟩, ⟨1316872800, -36000⟩, ⟨1325239200, 50400⟩,
      ⟨1333202400, 46800⟩, ⟨1348927200, 50400⟩, ⟨1365256800, 46800⟩, ⟨1380376800, 50400⟩,
      ⟨1396706400, 46800⟩, ⟨1411826400, 50400⟩, ⟨1428156000, 46800⟩, ⟨1443276000, 50400⟩,
      ⟨1459605600, 46800⟩, ⟨1474725600, 50400⟩, ⟨1491055200, 46800⟩, ⟨1506175200, 50400⟩,
      ⟨1522504800, 46800⟩, ⟨1538229600, 50400⟩, ⟨1554559200, 46800⟩, ⟨1569679200, 50400⟩,
      ⟨1586008800, 46800⟩, ⟨1601128800, 50400⟩, ⟨1617458400, 46800⟩]

def asiaTehran : Zone :=
  { name := "Asia/Tehran", base := 12600, changes := alternating 16200 12600 tehranSeconds }

def etcUtc : Zone :=
  { utc with name := "Etc/UTC" }

def gmt : Zone :=
  { utc with name := "GMT" }

def etcGmtPlus0 : Zone :=
  { utc with name := "Etc/GMT+0" }

def etcGmtPlus1 : Zone :=
  { name := "Etc/GMT+1", base := -3600, changes := [] }

def etcGmtMinus1 : Zone :=
  { name := "Etc/GMT-1", base := 3600, changes := [] }

def etcGmtPlus12 : Zone :=
  { name := "Etc/GMT+12", base := -43200, changes := [] }

def etcGmtMinus12 : Zone :=
  { name := "Etc/GMT-12", base := 43200, changes := [] }

def etcGmtMinus14 : Zone :=
  { name := "Etc/GMT-14", base := 50400, changes := [] }

def asiaTokyo : Zone :=
  { name := "Asia/Tokyo", base := 32400, changes := [] }

def asiaKolkata : Zone :=
  { name := "Asia/Kolkata", base := 19800, changes := [] }

def asiaKathmandu : Zone :=
  { name := "Asia/Kathmandu", base := 20700, changes := [] }

def pacificKiritimati : Zone :=
  { name := "Pacific/Kiritimati", base := 50400, changes := [] }

def pacificMarquesas : Zone :=
  { name := "Pacific/Marquesas", base := -34200, changes := [] }

def all : List Zone :=
  [europeKyiv, europeKiev, europeLondon, americaNewYork, americaStJohns, americaSaoPaulo,
    australiaLordHowe, antarcticaTroll, pacificApia, asiaTehran, utc, etcUtc, gmt, etcGmtPlus0,
    etcGmtPlus1, etcGmtMinus1, etcGmtPlus12, etcGmtMinus12, etcGmtMinus14, asiaTokyo, asiaKolkata,
    asiaKathmandu, pacificKiritimati, pacificMarquesas]

def find? (name : String) : Option Zone :=
  all.find? fun z => z.name = name

theorem find?_name : ∀ z ∈ all, find? z.name = some z := by
  decide

theorem name_of_find? {name : String} {z : Zone} (h : find? name = some z) : z.name = name := by
  simpa using List.find?_some h

end Zone

end Timetable
