/-!
# Canonical decompositions

The characters that Unicode 14 decomposes canonically, Hangul syllables apart (those follow a
formula).  An entry packs three groups of six hexadecimal digits: the character, the first part and
the second part, `0` where there is no second part.  `uncomposed` names the characters whose
two parts never join again.
-/

namespace CommitChain.Text.Normal

private def decompositions0 : List Nat := [
  0x0000C0000041000300, 0x0000C1000041000301, 0x0000C2000041000302, 0x0000C3000041000303,
  0x0000C4000041000308, 0x0000C500004100030A, 0x0000C7000043000327, 0x0000C8000045000300,
  0x0000C9000045000301, 0x0000CA000045000302, 0x0000CB000045000308, 0x0000CC000049000300,
  0x0000CD000049000301, 0x0000CE000049000302, 0x0000CF000049000308, 0x0000D100004E000303,
  0x0000D200004F000300, 0x0000D300004F000301, 0x0000D400004F000302, 0x0000D500004F000303,
  0x0000D600004F000308, 0x0000D9000055000300, 0x0000DA000055000301, 0x0000DB000055000302,
  0x0000DC000055000308, 0x0000DD000059000301, 0x0000E0000061000300, 0x0000E1000061000301,
  0x0000E2000061000302, 0x0000E3000061000303, 0x0000E4000061000308, 0x0000E500006100030A,
  0x0000E7000063000327, 0x0000E8000065000300, 0x0000E9000065000301, 0x0000EA000065000302,
  0x0000EB000065000308, 0x0000EC000069000300, 0x0000ED000069000301, 0x0000EE000069000302,
  0x0000EF000069000308, 0x0000F100006E000303, 0x0000F200006F000300, 0x0000F300006F000301,
  0x0000F400006F000302, 0x0000F500006F000303, 0x0000F600006F000308, 0x0000F9000075000300,
  0x0000FA000075000301, 0x0000FB000075000302, 0x0000FC000075000308, 0x0000FD000079000301,
  0x0000FF000079000308, 0x000100000041000304, 0x000101000061000304, 0x000102000041000306,
  0x000103000061000306, 0x000104000041000328, 0x000105000061000328, 0x000106000043000301,
  0x000107000063000301, 0x000108000043000302, 0x000109000063000302, 0x00010A000043000307,
  0x00010B000063000307, 0x00010C00004300030C, 0x00010D00006300030C, 0x00010E00004400030C,
  0x00010F00006400030C, 0x000112000045000304, 0x000113000065000304, 0x000114000045000306,
  0x000115000065000306, 0x000116000045000307, 0x000117000065000307, 0x000118000045000328,
  0x000119000065000328, 0x00011A00004500030C, 0x00011B00006500030C, 0x00011C000047000302,
  0x00011D000067000302, 0x00011E000047000306, 0x00011F000067000306, 0x000120000047000307,
  0x000121000067000307, 0x000122000047000327, 0x000123000067000327, 0x000124000048000302,
  0x000125000068000302, 0x000128000049000303, 0x000129000069000303, 0x00012A000049000304,
  0x00012B000069000304, 0x00012C000049000306, 0x00012D000069000306, 0x00012E000049000328,
  0x00012F000069000328, 0x000130000049000307, 0x00013400004A000302, 0x00013500006A000302,
  0x00013600004B000327, 0x00013700006B000327, 0x00013900004C000301, 0x00013A00006C000301,
  0x00013B00004C000327, 0x00013C00006C000327, 0x00013D00004C00030C, 0x00013E00006C00030C,
  0x00014300004E000301, 0x00014400006E000301, 0x00014500004E000327, 0x00014600006E000327,
  0x00014700004E00030C, 0x00014800006E00030C, 0x00014C00004F000304, 0x00014D00006F000304,
  0x00014E00004F000306, 0x00014F00006F000306, 0x00015000004F00030B, 0x00015100006F00030B,
  0x000154000052000301, 0x000155000072000301, 0x000156000052000327, 0x000157000072000327,
  0x00015800005200030C, 0x00015900007200030C, 0x00015A000053000301, 0x00015B000073000301]

private def decompositions1 : List Nat := [
  0x00015C000053000302, 0x00015D000073000302, 0x00015E000053000327, 0x00015F000073000327,
  0x00016000005300030C, 0x00016100007300030C, 0x000162000054000327, 0x000163000074000327,
  0x00016400005400030C, 0x00016500007400030C, 0x000168000055000303, 0x000169000075000303,
  0x00016A000055000304, 0x00016B000075000304, 0x00016C000055000306, 0x00016D000075000306,
  0x00016E00005500030A, 0x00016F00007500030A, 0x00017000005500030B, 0x00017100007500030B,
  0x000172000055000328, 0x000173000075000328, 0x000174000057000302, 0x000175000077000302,
  0x000176000059000302, 0x000177000079000302, 0x000178000059000308, 0x00017900005A000301,
  0x00017A00007A000301, 0x00017B00005A000307, 0x00017C00007A000307, 0x00017D00005A00030C,
  0x00017E00007A00030C, 0x0001A000004F00031B, 0x0001A100006F00031B, 0x0001AF00005500031B,
  0x0001B000007500031B, 0x0001CD00004100030C, 0x0001CE00006100030C, 0x0001CF00004900030C,
  0x0001D000006900030C, 0x0001D100004F00030C, 0x0001D200006F00030C, 0x0001D300005500030C,
  0x0001D400007500030C, 0x0001D50000DC000304, 0x0001D60000FC000304, 0x0001D70000DC000301,
  0x0001D80000FC000301, 0x0001D90000DC00030C, 0x0001DA0000FC00030C, 0x0001DB0000DC000300,
  0x0001DC0000FC000300, 0x0001DE0000C4000304, 0x0001DF0000E4000304, 0x0001E0000226000304,
  0x0001E1000227000304, 0x0001E20000C6000304, 0x0001E30000E6000304, 0x0001E600004700030C,
  0x0001E700006700030C, 0x0001E800004B00030C, 0x0001E900006B00030C, 0x0001EA00004F000328,
  0x0001EB00006F000328, 0x0001EC0001EA000304, 0x0001ED0001EB000304, 0x0001EE0001B700030C,
  0x0001EF00029200030C, 0x0001F000006A00030C, 0x0001F4000047000301, 0x0001F5000067000301,
  0x0001F800004E000300, 0x0001F900006E000300, 0x0001FA0000C5000301, 0x0001FB0000E5000301,
  0x0001FC0000C6000301, 0x0001FD0000E6000301, 0x0001FE0000D8000301, 0x0001FF0000F8000301,
  0x00020000004100030F, 0x00020100006100030F, 0x000202000041000311, 0x000203000061000311,
  0x00020400004500030F, 0x00020500006500030F, 0x000206000045000311, 0x000207000065000311,
  0x00020800004900030F, 0x00020900006900030F, 0x00020A000049000311, 0x00020B000069000311,
  0x00020C00004F00030F, 0x00020D00006F00030F, 0x00020E00004F000311, 0x00020F00006F000311,
  0x00021000005200030F, 0x00021100007200030F, 0x000212000052000311, 0x000213000072000311,
  0x00021400005500030F, 0x00021500007500030F, 0x000216000055000311, 0x000217000075000311,
  0x000218000053000326, 0x000219000073000326, 0x00021A000054000326, 0x00021B000074000326,
  0x00021E00004800030C, 0x00021F00006800030C, 0x000226000041000307, 0x000227000061000307,
  0x000228000045000327, 0x000229000065000327, 0x00022A0000D6000304, 0x00022B0000F6000304,
  0x00022C0000D5000304, 0x00022D0000F5000304, 0x00022E00004F000307, 0x00022F00006F000307,
  0x00023000022E000304, 0x00023100022F000304, 0x000232000059000304, 0x000233000079000304,
  0x000340000300000000, 0x000341000301000000, 0x000343000313000000, 0x000344000308000301]

private def decompositions2 : List Nat := [
  0x0003740002B9000000, 0x00037E00003B000000, 0x0003850000A8000301, 0x000386000391000301,
  0x0003870000B7000000, 0x000388000395000301, 0x000389000397000301, 0x00038A000399000301,
  0x00038C00039F000301, 0x00038E0003A5000301, 0x00038F0003A9000301, 0x0003900003CA000301,
  0x0003AA000399000308, 0x0003AB0003A5000308, 0x0003AC0003B1000301, 0x0003AD0003B5000301,
  0x0003AE0003B7000301, 0x0003AF0003B9000301, 0x0003B00003CB000301, 0x0003CA0003B9000308,
  0x0003CB0003C5000308, 0x0003CC0003BF000301, 0x0003CD0003C5000301, 0x0003CE0003C9000301,
  0x0003D30003D2000301, 0x0003D40003D2000308, 0x000400000415000300, 0x000401000415000308,
  0x000403000413000301, 0x000407000406000308, 0x00040C00041A000301, 0x00040D000418000300,
  0x00040E000423000306, 0x000419000418000306, 0x000439000438000306, 0x000450000435000300,
  0x000451000435000308, 0x000453000433000301, 0x000457000456000308, 0x00045C00043A000301,
  0x00045D000438000300, 0x00045E000443000306, 0x00047600047400030F, 0x00047700047500030F,
  0x0004C1000416000306, 0x0004C2000436000306, 0x0004D0000410000306, 0x0004D1000430000306,
  0x0004D2000410000308, 0x0004D3000430000308, 0x0004D6000415000306, 0x0004D7000435000306,
  0x0004DA0004D8000308, 0x0004DB0004D9000308, 0x0004DC000416000308, 0x0004DD000436000308,
  0x0004DE000417000308, 0x0004DF000437000308, 0x0004E2000418000304, 0x0004E3000438000304,
  0x0004E4000418000308, 0x0004E5000438000308, 0x0004E600041E000308, 0x0004E700043E000308,
  0x0004EA0004E8000308, 0x0004EB0004E9000308, 0x0004EC00042D000308, 0x0004ED00044D000308,
  0x0004EE000423000304, 0x0004EF000443000304, 0x0004F0000423000308, 0x0004F1000443000308,
  0x0004F200042300030B, 0x0004F300044300030B, 0x0004F4000427000308, 0x0004F5000447000308,
  0x0004F800042B000308, 0x0004F900044B000308, 0x000622000627000653, 0x000623000627000654,
  0x000624000648000654, 0x000625000627000655, 0x00062600064A000654, 0x0006C00006D5000654,
  0x0006C20006C1000654, 0x0006D30006D2000654, 0x00092900092800093C, 0x00093100093000093C,
  0x00093400093300093C, 0x00095800091500093C, 0x00095900091600093C, 0x00095A00091700093C,
  0x00095B00091C00093C, 0x00095C00092100093C, 0x00095D00092200093C, 0x00095E00092B00093C,
  0x00095F00092F00093C, 0x0009CB0009C70009BE, 0x0009CC0009C70009D7, 0x0009DC0009A10009BC,
  0x0009DD0009A20009BC, 0x0009DF0009AF0009BC, 0x000A33000A32000A3C, 0x000A36000A38000A3C,
  0x000A59000A16000A3C, 0x000A5A000A17000A3C, 0x000A5B000A1C000A3C, 0x000A5E000A2B000A3C,
  0x000B48000B47000B56, 0x000B4B000B47000B3E, 0x000B4C000B47000B57, 0x000B5C000B21000B3C,
  0x000B5D000B22000B3C, 0x000B94000B92000BD7, 0x000BCA000BC6000BBE, 0x000BCB000BC7000BBE,
  0x000BCC000BC6000BD7, 0x000C48000C46000C56, 0x000CC0000CBF000CD5, 0x000CC7000CC6000CD5,
  0x000CC8000CC6000CD6, 0x000CCA000CC6000CC2, 0x000CCB000CCA000CD5, 0x000D4A000D46000D3E,
  0x000D4B000D47000D3E, 0x000D4C000D46000D57, 0x000DDA000DD9000DCA, 0x000DDC000DD9000DCF]

private def decompositions3 : List Nat := [
  0x000DDD000DDC000DCA, 0x000DDE000DD9000DDF, 0x000F43000F42000FB7, 0x000F4D000F4C000FB7,
  0x000F52000F51000FB7, 0x000F57000F56000FB7, 0x000F5C000F5B000FB7, 0x000F69000F40000FB5,
  0x000F73000F71000F72, 0x000F75000F71000F74, 0x000F76000FB2000F80, 0x000F78000FB3000F80,
  0x000F81000F71000F80, 0x000F93000F92000FB7, 0x000F9D000F9C000FB7, 0x000FA2000FA1000FB7,
  0x000FA7000FA6000FB7, 0x000FAC000FAB000FB7, 0x000FB9000F90000FB5, 0x00102600102500102E,
  0x001B06001B05001B35, 0x001B08001B07001B35, 0x001B0A001B09001B35, 0x001B0C001B0B001B35,
  0x001B0E001B0D001B35, 0x001B12001B11001B35, 0x001B3B001B3A001B35, 0x001B3D001B3C001B35,
  0x001B40001B3E001B35, 0x001B41001B3F001B35, 0x001B43001B42001B35, 0x001E00000041000325,
  0x001E01000061000325, 0x001E02000042000307, 0x001E03000062000307, 0x001E04000042000323,
  0x001E05000062000323, 0x001E06000042000331, 0x001E07000062000331, 0x001E080000C7000301,
  0x001E090000E7000301, 0x001E0A000044000307, 0x001E0B000064000307, 0x001E0C000044000323,
  0x001E0D000064000323, 0x001E0E000044000331, 0x001E0F000064000331, 0x001E10000044000327,
  0x001E11000064000327, 0x001E1200004400032D, 0x001E1300006400032D, 0x001E14000112000300,
  0x001E15000113000300, 0x001E16000112000301, 0x001E17000113000301, 0x001E1800004500032D,
  0x001E1900006500032D, 0x001E1A000045000330, 0x001E1B000065000330, 0x001E1C000228000306,
  0x001E1D000229000306, 0x001E1E000046000307, 0x001E1F000066000307, 0x001E20000047000304,
  0x001E21000067000304, 0x001E22000048000307, 0x001E23000068000307, 0x001E24000048000323,
  0x001E25000068000323, 0x001E26000048000308, 0x001E27000068000308, 0x001E28000048000327,
  0x001E29000068000327, 0x001E2A00004800032E, 0x001E2B00006800032E, 0x001E2C000049000330,
  0x001E2D000069000330, 0x001E2E0000CF000301, 0x001E2F0000EF000301, 0x001E3000004B000301,
  0x001E3100006B000301, 0x001E3200004B000323, 0x001E3300006B000323, 0x001E3400004B000331,
  0x001E3500006B000331, 0x001E3600004C000323, 0x001E3700006C000323, 0x001E38001E36000304,
  0x001E39001E37000304, 0x001E3A00004C000331, 0x001E3B00006C000331, 0x001E3C00004C00032D,
  0x001E3D00006C00032D, 0x001E3E00004D000301, 0x001E3F00006D000301, 0x001E4000004D000307,
  0x001E4100006D000307, 0x001E4200004D000323, 0x001E4300006D000323, 0x001E4400004E000307,
  0x001E4500006E000307, 0x001E4600004E000323, 0x001E4700006E000323, 0x001E4800004E000331,
  0x001E4900006E000331, 0x001E4A00004E00032D, 0x001E4B00006E00032D, 0x001E4C0000D5000301,
  0x001E4D0000F5000301, 0x001E4E0000D5000308, 0x001E4F0000F5000308, 0x001E5000014C000300,
  0x001E5100014D000300, 0x001E5200014C000301, 0x001E5300014D000301, 0x001E54000050000301,
  0x001E55000070000301, 0x001E56000050000307, 0x001E57000070000307, 0x001E58000052000307,
  0x001E59000072000307, 0x001E5A000052000323, 0x001E5B000072000323, 0x001E5C001E5A000304,
  0x001E5D001E5B000304, 0x001E5E000052000331, 0x001E5F000072000331, 0x001E60000053000307]

private def decompositions4 : List Nat := [
  0x001E61000073000307, 0x001E62000053000323, 0x001E63000073000323, 0x001E6400015A000307,
  0x001E6500015B000307, 0x001E66000160000307, 0x001E67000161000307, 0x001E68001E62000307,
  0x001E69001E63000307, 0x001E6A000054000307, 0x001E6B000074000307, 0x001E6C000054000323,
  0x001E6D000074000323, 0x001E6E000054000331, 0x001E6F000074000331, 0x001E7000005400032D,
  0x001E7100007400032D, 0x001E72000055000324, 0x001E73000075000324, 0x001E74000055000330,
  0x001E75000075000330, 0x001E7600005500032D, 0x001E7700007500032D, 0x001E78000168000301,
  0x001E79000169000301, 0x001E7A00016A000308, 0x001E7B00016B000308, 0x001E7C000056000303,
  0x001E7D000076000303, 0x001E7E000056000323, 0x001E7F000076000323, 0x001E80000057000300,
  0x001E81000077000300, 0x001E82000057000301, 0x001E83000077000301, 0x001E84000057000308,
  0x001E85000077000308, 0x001E86000057000307, 0x001E87000077000307, 0x001E88000057000323,
  0x001E89000077000323, 0x001E8A000058000307, 0x001E8B000078000307, 0x001E8C000058000308,
  0x001E8D000078000308, 0x001E8E000059000307, 0x001E8F000079000307, 0x001E9000005A000302,
  0x001E9100007A000302, 0x001E9200005A000323, 0x001E9300007A000323, 0x001E9400005A000331,
  0x001E9500007A000331, 0x001E96000068000331, 0x001E97000074000308, 0x001E9800007700030A,
  0x001E9900007900030A, 0x001E9B00017F000307, 0x001EA0000041000323, 0x001EA1000061000323,
  0x001EA2000041000309, 0x001EA3000061000309, 0x001EA40000C2000301, 0x001EA50000E2000301,
  0x001EA60000C2000300, 0x001EA70000E2000300, 0x001EA80000C2000309, 0x001EA90000E2000309,
  0x001EAA0000C2000303, 0x001EAB0000E2000303, 0x001EAC001EA0000302, 0x001EAD001EA1000302,
  0x001EAE000102000301, 0x001EAF000103000301, 0x001EB0000102000300, 0x001EB1000103000300,
  0x001EB2000102000309, 0x001EB3000103000309, 0x001EB4000102000303, 0x001EB5000103000303,
  0x001EB6001EA0000306, 0x001EB7001EA1000306, 0x001EB8000045000323, 0x001EB9000065000323,
  0x001EBA000045000309, 0x001EBB000065000309, 0x001EBC000045000303, 0x001EBD000065000303,
  0x001EBE0000CA000301, 0x001EBF0000EA000301, 0x001EC00000CA000300, 0x001EC10000EA000300,
  0x001EC20000CA000309, 0x001EC30000EA000309, 0x001EC40000CA000303, 0x001EC50000EA000303,
  0x001EC6001EB8000302, 0x001EC7001EB9000302, 0x001EC8000049000309, 0x001EC9000069000309,
  0x001ECA000049000323, 0x001ECB000069000323, 0x001ECC00004F000323, 0x001ECD00006F000323,
  0x001ECE00004F000309, 0x001ECF00006F000309, 0x001ED00000D4000301, 0x001ED10000F4000301,
  0x001ED20000D4000300, 0x001ED30000F4000300, 0x001ED40000D4000309, 0x001ED50000F4000309,
  0x001ED60000D4000303, 0x001ED70000F4000303, 0x001ED8001ECC000302, 0x001ED9001ECD000302,
  0x001EDA0001A0000301, 0x001EDB0001A1000301, 0x001EDC0001A0000300, 0x001EDD0001A1000300,
  0x001EDE0001A0000309, 0x001EDF0001A1000309, 0x001EE00001A0000303, 0x001EE10001A1000303,
  0x001EE20001A0000323, 0x001EE30001A1000323, 0x001EE4000055000323, 0x001EE5000075000323]

private def decompositions5 : List Nat := [
  0x001EE6000055000309, 0x001EE7000075000309, 0x001EE80001AF000301, 0x001EE90001B0000301,
  0x001EEA0001AF000300, 0x001EEB0001B0000300, 0x001EEC0001AF000309, 0x001EED0001B0000309,
  0x001EEE0001AF000303, 0x001EEF0001B0000303, 0x001EF00001AF000323, 0x001EF10001B0000323,
  0x001EF2000059000300, 0x001EF3000079000300, 0x001EF4000059000323, 0x001EF5000079000323,
  0x001EF6000059000309, 0x001EF7000079000309, 0x001EF8000059000303, 0x001EF9000079000303,
  0x001F000003B1000313, 0x001F010003B1000314, 0x001F02001F00000300, 0x001F03001F01000300,
  0x001F04001F00000301, 0x001F05001F01000301, 0x001F06001F00000342, 0x001F07001F01000342,
  0x001F08000391000313, 0x001F09000391000314, 0x001F0A001F08000300, 0x001F0B001F09000300,
  0x001F0C001F08000301, 0x001F0D001F09000301, 0x001F0E001F08000342, 0x001F0F001F09000342,
  0x001F100003B5000313, 0x001F110003B5000314, 0x001F12001F10000300, 0x001F13001F11000300,
  0x001F14001F10000301, 0x001F15001F11000301, 0x001F18000395000313, 0x001F19000395000314,
  0x001F1A001F18000300, 0x001F1B001F19000300, 0x001F1C001F18000301, 0x001F1D001F19000301,
  0x001F200003B7000313, 0x001F210003B7000314, 0x001F22001F20000300, 0x001F23001F21000300,
  0x001F24001F20000301, 0x001F25001F21000301, 0x001F26001F20000342, 0x001F27001F21000342,
  0x001F28000397000313, 0x001F29000397000314, 0x001F2A001F28000300, 0x001F2B001F29000300,
  0x001F2C001F28000301, 0x001F2D001F29000301, 0x001F2E001F28000342, 0x001F2F001F29000342,
  0x001F300003B9000313, 0x001F310003B9000314, 0x001F32001F30000300, 0x001F33001F31000300,
  0x001F34001F30000301, 0x001F35001F31000301, 0x001F36001F30000342, 0x001F37001F31000342,
  0x001F38000399000313, 0x001F39000399000314, 0x001F3A001F38000300, 0x001F3B001F39000300,
  0x001F3C001F38000301, 0x001F3D001F39000301, 0x001F3E001F38000342, 0x001F3F001F39000342,
  0x001F400003BF000313, 0x001F410003BF000314, 0x001F42001F40000300, 0x001F43001F41000300,
  0x001F44001F40000301, 0x001F45001F41000301, 0x001F4800039F000313, 0x001F4900039F000314,
  0x001F4A001F48000300, 0x001F4B001F49000300, 0x001F4C001F48000301, 0x001F4D001F49000301,
  0x001F500003C5000313, 0x001F510003C5000314, 0x001F52001F50000300, 0x001F53001F51000300,
  0x001F54001F50000301, 0x001F55001F51000301, 0x001F56001F50000342, 0x001F57001F51000342,
  0x001F590003A5000314, 0x001F5B001F59000300, 0x001F5D001F59000301, 0x001F5F001F59000342,
  0x001F600003C9000313, 0x001F610003C9000314, 0x001F62001F60000300, 0x001F63001F61000300,
  0x001F64001F60000301, 0x001F65001F61000301, 0x001F66001F60000342, 0x001F67001F61000342,
  0x001F680003A9000313, 0x001F690003A9000314, 0x001F6A001F68000300, 0x001F6B001F69000300,
  0x001F6C001F68000301, 0x001F6D001F69000301, 0x001F6E001F68000342, 0x001F6F001F69000342,
  0x001F700003B1000300, 0x001F710003AC000000, 0x001F720003B5000300, 0x001F730003AD000000,
  0x001F740003B7000300, 0x001F750003AE000000, 0x001F760003B9000300, 0x001F770003AF000000]

private def decompositions6 : List Nat := [
  0x001F780003BF000300, 0x001F790003CC000000, 0x001F7A0003C5000300, 0x001F7B0003CD000000,
  0x001F7C0003C9000300, 0x001F7D0003CE000000, 0x001F80001F00000345, 0x001F81001F01000345,
  0x001F82001F02000345, 0x001F83001F03000345, 0x001F84001F04000345, 0x001F85001F05000345,
  0x001F86001F06000345, 0x001F87001F07000345, 0x001F88001F08000345, 0x001F89001F09000345,
  0x001F8A001F0A000345, 0x001F8B001F0B000345, 0x001F8C001F0C000345, 0x001F8D001F0D000345,
  0x001F8E001F0E000345, 0x001F8F001F0F000345, 0x001F90001F20000345, 0x001F91001F21000345,
  0x001F92001F22000345, 0x001F93001F23000345, 0x001F94001F24000345, 0x001F95001F25000345,
  0x001F96001F26000345, 0x001F97001F27000345, 0x001F98001F28000345, 0x001F99001F29000345,
  0x001F9A001F2A000345, 0x001F9B001F2B000345, 0x001F9C001F2C000345, 0x001F9D001F2D000345,
  0x001F9E001F2E000345, 0x001F9F001F2F000345, 0x001FA0001F60000345, 0x001FA1001F61000345,
  0x001FA2001F62000345, 0x001FA3001F63000345, 0x001FA4001F64000345, 0x001FA5001F65000345,
  0x001FA6001F66000345, 0x001FA7001F67000345, 0x001FA8001F68000345, 0x001FA9001F69000345,
  0x001FAA001F6A000345, 0x001FAB001F6B000345, 0x001FAC001F6C000345, 0x001FAD001F6D000345,
  0x001FAE001F6E000345, 0x001FAF001F6F000345, 0x001FB00003B1000306, 0x001FB10003B1000304,
  0x001FB2001F70000345, 0x001FB30003B1000345, 0x001FB40003AC000345, 0x001FB60003B1000342,
  0x001FB7001FB6000345, 0x001FB8000391000306, 0x001FB9000391000304, 0x001FBA000391000300,
  0x001FBB000386000000, 0x001FBC000391000345, 0x001FBE0003B9000000, 0x001FC10000A8000342,
  0x001FC2001F74000345, 0x001FC30003B7000345, 0x001FC40003AE000345, 0x001FC60003B7000342,
  0x001FC7001FC6000345, 0x001FC8000395000300, 0x001FC9000388000000, 0x001FCA000397000300,
  0x001FCB000389000000, 0x001FCC000397000345, 0x001FCD001FBF000300, 0x001FCE001FBF000301,
  0x001FCF001FBF000342, 0x001FD00003B9000306, 0x001FD10003B9000304, 0x001FD20003CA000300,
  0x001FD3000390000000, 0x001FD60003B9000342, 0x001FD70003CA000342, 0x001FD8000399000306,
  0x001FD9000399000304, 0x001FDA000399000300, 0x001FDB00038A000000, 0x001FDD001FFE000300,
  0x001FDE001FFE000301, 0x001FDF001FFE000342, 0x001FE00003C5000306, 0x001FE10003C5000304,
  0x001FE20003CB000300, 0x001FE30003B0000000, 0x001FE40003C1000313, 0x001FE50003C1000314,
  0x001FE60003C5000342, 0x001FE70003CB000342, 0x001FE80003A5000306, 0x001FE90003A5000304,
  0x001FEA0003A5000300, 0x001FEB00038E000000, 0x001FEC0003A1000314, 0x001FED0000A8000300,
  0x001FEE000385000000, 0x001FEF000060000000, 0x001FF2001F7C000345, 0x001FF30003C9000345,
  0x001FF40003CE000345, 0x001FF60003C9000342, 0x001FF7001FF6000345, 0x001FF800039F000300,
  0x001FF900038C000000, 0x001FFA0003A9000300, 0x001FFB00038F000000, 0x001FFC0003A9000345,
  0x001FFD0000B4000000, 0x002000002002000000, 0x002001002003000000, 0x0021260003A9000000,
  0x00212A00004B000000, 0x00212B0000C5000000, 0x00219A002190000338, 0x00219B002192000338]

private def decompositions7 : List Nat := [
  0x0021AE002194000338, 0x0021CD0021D0000338, 0x0021CE0021D4000338, 0x0021CF0021D2000338,
  0x002204002203000338, 0x002209002208000338, 0x00220C00220B000338, 0x002224002223000338,
  0x002226002225000338, 0x00224100223C000338, 0x002244002243000338, 0x002247002245000338,
  0x002249002248000338, 0x00226000003D000338, 0x002262002261000338, 0x00226D00224D000338,
  0x00226E00003C000338, 0x00226F00003E000338, 0x002270002264000338, 0x002271002265000338,
  0x002274002272000338, 0x002275002273000338, 0x002278002276000338, 0x002279002277000338,
  0x00228000227A000338, 0x00228100227B000338, 0x002284002282000338, 0x002285002283000338,
  0x002288002286000338, 0x002289002287000338, 0x0022AC0022A2000338, 0x0022AD0022A8000338,
  0x0022AE0022A9000338, 0x0022AF0022AB000338, 0x0022E000227C000338, 0x0022E100227D000338,
  0x0022E2002291000338, 0x0022E3002292000338, 0x0022EA0022B2000338, 0x0022EB0022B3000338,
  0x0022EC0022B4000338, 0x0022ED0022B5000338, 0x002329003008000000, 0x00232A003009000000,
  0x002ADC002ADD000338, 0x00304C00304B003099, 0x00304E00304D003099, 0x00305000304F003099,
  0x003052003051003099, 0x003054003053003099, 0x003056003055003099, 0x003058003057003099,
  0x00305A003059003099, 0x00305C00305B003099, 0x00305E00305D003099, 0x00306000305F003099,
  0x003062003061003099, 0x003065003064003099, 0x003067003066003099, 0x003069003068003099,
  0x00307000306F003099, 0x00307100306F00309A, 0x003073003072003099, 0x00307400307200309A,
  0x003076003075003099, 0x00307700307500309A, 0x003079003078003099, 0x00307A00307800309A,
  0x00307C00307B003099, 0x00307D00307B00309A, 0x003094003046003099, 0x00309E00309D003099,
  0x0030AC0030AB003099, 0x0030AE0030AD003099, 0x0030B00030AF003099, 0x0030B20030B1003099,
  0x0030B40030B3003099, 0x0030B60030B5003099, 0x0030B80030B7003099, 0x0030BA0030B9003099,
  0x0030BC0030BB003099, 0x0030BE0030BD003099, 0x0030C00030BF003099, 0x0030C20030C1003099,
  0x0030C50030C4003099, 0x0030C70030C6003099, 0x0030C90030C8003099, 0x0030D00030CF003099,
  0x0030D10030CF00309A, 0x0030D30030D2003099, 0x0030D40030D200309A, 0x0030D60030D5003099,
  0x0030D70030D500309A, 0x0030D90030D8003099, 0x0030DA0030D800309A, 0x0030DC0030DB003099,
  0x0030DD0030DB00309A, 0x0030F40030A6003099, 0x0030F70030EF003099, 0x0030F80030F0003099,
  0x0030F90030F1003099, 0x0030FA0030F2003099, 0x0030FE0030FD003099, 0x00F900008C48000000,
  0x00F9010066F4000000, 0x00F902008ECA000000, 0x00F903008CC8000000, 0x00F904006ED1000000,
  0x00F905004E32000000, 0x00F9060053E5000000, 0x00F907009F9C000000, 0x00F908009F9C000000,
  0x00F909005951000000, 0x00F90A0091D1000000, 0x00F90B005587000000, 0x00F90C005948000000,
  0x00F90D0061F6000000, 0x00F90E007669000000, 0x00F90F007F85000000, 0x00F91000863F000000,
  0x00F9110087BA000000, 0x00F9120088F8000000, 0x00F91300908F000000, 0x00F914006A02000000,
  0x00F915006D1B000000, 0x00F9160070D9000000, 0x00F9170073DE000000, 0x00F91800843D000000]

private def decompositions8 : List Nat := [
  0x00F91900916A000000, 0x00F91A0099F1000000, 0x00F91B004E82000000, 0x00F91C005375000000,
  0x00F91D006B04000000, 0x00F91E00721B000000, 0x00F91F00862D000000, 0x00F920009E1E000000,
  0x00F921005D50000000, 0x00F922006FEB000000, 0x00F9230085CD000000, 0x00F924008964000000,
  0x00F9250062C9000000, 0x00F9260081D8000000, 0x00F92700881F000000, 0x00F928005ECA000000,
  0x00F929006717000000, 0x00F92A006D6A000000, 0x00F92B0072FC000000, 0x00F92C0090CE000000,
  0x00F92D004F86000000, 0x00F92E0051B7000000, 0x00F92F0052DE000000, 0x00F9300064C4000000,
  0x00F931006AD3000000, 0x00F932007210000000, 0x00F9330076E7000000, 0x00F934008001000000,
  0x00F935008606000000, 0x00F93600865C000000, 0x00F937008DEF000000, 0x00F938009732000000,
  0x00F939009B6F000000, 0x00F93A009DFA000000, 0x00F93B00788C000000, 0x00F93C00797F000000,
  0x00F93D007DA0000000, 0x00F93E0083C9000000, 0x00F93F009304000000, 0x00F940009E7F000000,
  0x00F941008AD6000000, 0x00F9420058DF000000, 0x00F943005F04000000, 0x00F944007C60000000,
  0x00F94500807E000000, 0x00F946007262000000, 0x00F9470078CA000000, 0x00F948008CC2000000,
  0x00F9490096F7000000, 0x00F94A0058D8000000, 0x00F94B005C62000000, 0x00F94C006A13000000,
  0x00F94D006DDA000000, 0x00F94E006F0F000000, 0x00F94F007D2F000000, 0x00F950007E37000000,
  0x00F95100964B000000, 0x00F9520052D2000000, 0x00F95300808B000000, 0x00F9540051DC000000,
  0x00F9550051CC000000, 0x00F956007A1C000000, 0x00F957007DBE000000, 0x00F9580083F1000000,
  0x00F959009675000000, 0x00F95A008B80000000, 0x00F95B0062CF000000, 0x00F95C006A02000000,
  0x00F95D008AFE000000, 0x00F95E004E39000000, 0x00F95F005BE7000000, 0x00F960006012000000,
  0x00F961007387000000, 0x00F962007570000000, 0x00F963005317000000, 0x00F9640078FB000000,
  0x00F965004FBF000000, 0x00F966005FA9000000, 0x00F967004E0D000000, 0x00F968006CCC000000,
  0x00F969006578000000, 0x00F96A007D22000000, 0x00F96B0053C3000000, 0x00F96C00585E000000,
  0x00F96D007701000000, 0x00F96E008449000000, 0x00F96F008AAA000000, 0x00F970006BBA000000,
  0x00F971008FB0000000, 0x00F972006C88000000, 0x00F9730062FE000000, 0x00F9740082E5000000,
  0x00F9750063A0000000, 0x00F976007565000000, 0x00F977004EAE000000, 0x00F978005169000000,
  0x00F9790051C9000000, 0x00F97A006881000000, 0x00F97B007CE7000000, 0x00F97C00826F000000,
  0x00F97D008AD2000000, 0x00F97E0091CF000000, 0x00F97F0052F5000000, 0x00F980005442000000,
  0x00F981005973000000, 0x00F982005EEC000000, 0x00F9830065C5000000, 0x00F984006FFE000000,
  0x00F98500792A000000, 0x00F9860095AD000000, 0x00F987009A6A000000, 0x00F988009E97000000,
  0x00F989009ECE000000, 0x00F98A00529B000000, 0x00F98B0066C6000000, 0x00F98C006B77000000,
  0x00F98D008F62000000, 0x00F98E005E74000000, 0x00F98F006190000000, 0x00F990006200000000,
  0x00F99100649A000000, 0x00F992006F23000000, 0x00F993007149000000, 0x00F994007489000000,
  0x00F9950079CA000000, 0x00F996007DF4000000, 0x00F99700806F000000, 0x00F998008F26000000]

private def decompositions9 : List Nat := [
  0x00F9990084EE000000, 0x00F99A009023000000, 0x00F99B00934A000000, 0x00F99C005217000000,
  0x00F99D0052A3000000, 0x00F99E0054BD000000, 0x00F99F0070C8000000, 0x00F9A00088C2000000,
  0x00F9A1008AAA000000, 0x00F9A2005EC9000000, 0x00F9A3005FF5000000, 0x00F9A400637B000000,
  0x00F9A5006BAE000000, 0x00F9A6007C3E000000, 0x00F9A7007375000000, 0x00F9A8004EE4000000,
  0x00F9A90056F9000000, 0x00F9AA005BE7000000, 0x00F9AB005DBA000000, 0x00F9AC00601C000000,
  0x00F9AD0073B2000000, 0x00F9AE007469000000, 0x00F9AF007F9A000000, 0x00F9B0008046000000,
  0x00F9B1009234000000, 0x00F9B20096F6000000, 0x00F9B3009748000000, 0x00F9B4009818000000,
  0x00F9B5004F8B000000, 0x00F9B60079AE000000, 0x00F9B70091B4000000, 0x00F9B80096B8000000,
  0x00F9B90060E1000000, 0x00F9BA004E86000000, 0x00F9BB0050DA000000, 0x00F9BC005BEE000000,
  0x00F9BD005C3F000000, 0x00F9BE006599000000, 0x00F9BF006A02000000, 0x00F9C00071CE000000,
  0x00F9C1007642000000, 0x00F9C20084FC000000, 0x00F9C300907C000000, 0x00F9C4009F8D000000,
  0x00F9C5006688000000, 0x00F9C600962E000000, 0x00F9C7005289000000, 0x00F9C800677B000000,
  0x00F9C90067F3000000, 0x00F9CA006D41000000, 0x00F9CB006E9C000000, 0x00F9CC007409000000,
  0x00F9CD007559000000, 0x00F9CE00786B000000, 0x00F9CF007D10000000, 0x00F9D000985E000000,
  0x00F9D100516D000000, 0x00F9D200622E000000, 0x00F9D3009678000000, 0x00F9D400502B000000,
  0x00F9D5005D19000000, 0x00F9D6006DEA000000, 0x00F9D7008F2A000000, 0x00F9D8005F8B000000,
  0x00F9D9006144000000, 0x00F9DA006817000000, 0x00F9DB007387000000, 0x00F9DC009686000000,
  0x00F9DD005229000000, 0x00F9DE00540F000000, 0x00F9DF005C65000000, 0x00F9E0006613000000,
  0x00F9E100674E000000, 0x00F9E20068A8000000, 0x00F9E3006CE5000000, 0x00F9E4007406000000,
  0x00F9E50075E2000000, 0x00F9E6007F79000000, 0x00F9E70088CF000000, 0x00F9E80088E1000000,
  0x00F9E90091CC000000, 0x00F9EA0096E2000000, 0x00F9EB00533F000000, 0x00F9EC006EBA000000,
  0x00F9ED00541D000000, 0x00F9EE0071D0000000, 0x00F9EF007498000000, 0x00F9F00085FA000000,
  0x00F9F10096A3000000, 0x00F9F2009C57000000, 0x00F9F3009E9F000000, 0x00F9F4006797000000,
  0x00F9F5006DCB000000, 0x00F9F60081E8000000, 0x00F9F7007ACB000000, 0x00F9F8007B20000000,
  0x00F9F9007C92000000, 0x00F9FA0072C0000000, 0x00F9FB007099000000, 0x00F9FC008B58000000,
  0x00F9FD004EC0000000, 0x00F9FE008336000000, 0x00F9FF00523A000000, 0x00FA00005207000000,
  0x00FA01005EA6000000, 0x00FA020062D3000000, 0x00FA03007CD6000000, 0x00FA04005B85000000,
  0x00FA05006D1E000000, 0x00FA060066B4000000, 0x00FA07008F3B000000, 0x00FA0800884C000000,
  0x00FA0900964D000000, 0x00FA0A00898B000000, 0x00FA0B005ED3000000, 0x00FA0C005140000000,
  0x00FA0D0055C0000000, 0x00FA1000585A000000, 0x00FA12006674000000, 0x00FA150051DE000000,
  0x00FA1600732A000000, 0x00FA170076CA000000, 0x00FA1800793C000000, 0x00FA1900795E000000,
  0x00FA1A007965000000, 0x00FA1B00798F000000, 0x00FA1C009756000000, 0x00FA1D007CBE000000]

private def decompositions10 : List Nat := [
  0x00FA1E007FBD000000, 0x00FA20008612000000, 0x00FA22008AF8000000, 0x00FA25009038000000,
  0x00FA260090FD000000, 0x00FA2A0098EF000000, 0x00FA2B0098FC000000, 0x00FA2C009928000000,
  0x00FA2D009DB4000000, 0x00FA2E0090DE000000, 0x00FA2F0096B7000000, 0x00FA30004FAE000000,
  0x00FA310050E7000000, 0x00FA3200514D000000, 0x00FA330052C9000000, 0x00FA340052E4000000,
  0x00FA35005351000000, 0x00FA3600559D000000, 0x00FA37005606000000, 0x00FA38005668000000,
  0x00FA39005840000000, 0x00FA3A0058A8000000, 0x00FA3B005C64000000, 0x00FA3C005C6E000000,
  0x00FA3D006094000000, 0x00FA3E006168000000, 0x00FA3F00618E000000, 0x00FA400061F2000000,
  0x00FA4100654F000000, 0x00FA420065E2000000, 0x00FA43006691000000, 0x00FA44006885000000,
  0x00FA45006D77000000, 0x00FA46006E1A000000, 0x00FA47006F22000000, 0x00FA4800716E000000,
  0x00FA4900722B000000, 0x00FA4A007422000000, 0x00FA4B007891000000, 0x00FA4C00793E000000,
  0x00FA4D007949000000, 0x00FA4E007948000000, 0x00FA4F007950000000, 0x00FA50007956000000,
  0x00FA5100795D000000, 0x00FA5200798D000000, 0x00FA5300798E000000, 0x00FA54007A40000000,
  0x00FA55007A81000000, 0x00FA56007BC0000000, 0x00FA57007DF4000000, 0x00FA58007E09000000,
  0x00FA59007E41000000, 0x00FA5A007F72000000, 0x00FA5B008005000000, 0x00FA5C0081ED000000,
  0x00FA5D008279000000, 0x00FA5E008279000000, 0x00FA5F008457000000, 0x00FA60008910000000,
  0x00FA61008996000000, 0x00FA62008B01000000, 0x00FA63008B39000000, 0x00FA64008CD3000000,
  0x00FA65008D08000000, 0x00FA66008FB6000000, 0x00FA67009038000000, 0x00FA680096E3000000,
  0x00FA690097FF000000, 0x00FA6A00983B000000, 0x00FA6B006075000000, 0x00FA6C0242EE000000,
  0x00FA6D008218000000, 0x00FA70004E26000000, 0x00FA710051B5000000, 0x00FA72005168000000,
  0x00FA73004F80000000, 0x00FA74005145000000, 0x00FA75005180000000, 0x00FA760052C7000000,
  0x00FA770052FA000000, 0x00FA7800559D000000, 0x00FA79005555000000, 0x00FA7A005599000000,
  0x00FA7B0055E2000000, 0x00FA7C00585A000000, 0x00FA7D0058B3000000, 0x00FA7E005944000000,
  0x00FA7F005954000000, 0x00FA80005A62000000, 0x00FA81005B28000000, 0x00FA82005ED2000000,
  0x00FA83005ED9000000, 0x00FA84005F69000000, 0x00FA85005FAD000000, 0x00FA860060D8000000,
  0x00FA8700614E000000, 0x00FA88006108000000, 0x00FA8900618E000000, 0x00FA8A006160000000,
  0x00FA8B0061F2000000, 0x00FA8C006234000000, 0x00FA8D0063C4000000, 0x00FA8E00641C000000,
  0x00FA8F006452000000, 0x00FA90006556000000, 0x00FA91006674000000, 0x00FA92006717000000,
  0x00FA9300671B000000, 0x00FA94006756000000, 0x00FA95006B79000000, 0x00FA96006BBA000000,
  0x00FA97006D41000000, 0x00FA98006EDB000000, 0x00FA99006ECB000000, 0x00FA9A006F22000000,
  0x00FA9B00701E000000, 0x00FA9C00716E000000, 0x00FA9D0077A7000000, 0x00FA9E007235000000,
  0x00FA9F0072AF000000, 0x00FAA000732A000000, 0x00FAA1007471000000, 0x00FAA2007506000000,
  0x00FAA300753B000000, 0x00FAA400761D000000, 0x00FAA500761F000000, 0x00FAA60076CA000000]

private def decompositions11 : List Nat := [
  0x00FAA70076DB000000, 0x00FAA80076F4000000, 0x00FAA900774A000000, 0x00FAAA007740000000,
  0x00FAAB0078CC000000, 0x00FAAC007AB1000000, 0x00FAAD007BC0000000, 0x00FAAE007C7B000000,
  0x00FAAF007D5B000000, 0x00FAB0007DF4000000, 0x00FAB1007F3E000000, 0x00FAB2008005000000,
  0x00FAB3008352000000, 0x00FAB40083EF000000, 0x00FAB5008779000000, 0x00FAB6008941000000,
  0x00FAB7008986000000, 0x00FAB8008996000000, 0x00FAB9008ABF000000, 0x00FABA008AF8000000,
  0x00FABB008ACB000000, 0x00FABC008B01000000, 0x00FABD008AFE000000, 0x00FABE008AED000000,
  0x00FABF008B39000000, 0x00FAC0008B8A000000, 0x00FAC1008D08000000, 0x00FAC2008F38000000,
  0x00FAC3009072000000, 0x00FAC4009199000000, 0x00FAC5009276000000, 0x00FAC600967C000000,
  0x00FAC70096E3000000, 0x00FAC8009756000000, 0x00FAC90097DB000000, 0x00FACA0097FF000000,
  0x00FACB00980B000000, 0x00FACC00983B000000, 0x00FACD009B12000000, 0x00FACE009F9C000000,
  0x00FACF02284A000000, 0x00FAD0022844000000, 0x00FAD10233D5000000, 0x00FAD2003B9D000000,
  0x00FAD3004018000000, 0x00FAD4004039000000, 0x00FAD5025249000000, 0x00FAD6025CD0000000,
  0x00FAD7027ED3000000, 0x00FAD8009F43000000, 0x00FAD9009F8E000000, 0x00FB1D0005D90005B4,
  0x00FB1F0005F20005B7, 0x00FB2A0005E90005C1, 0x00FB2B0005E90005C2, 0x00FB2C00FB490005C1,
  0x00FB2D00FB490005C2, 0x00FB2E0005D00005B7, 0x00FB2F0005D00005B8, 0x00FB300005D00005BC,
  0x00FB310005D10005BC, 0x00FB320005D20005BC, 0x00FB330005D30005BC, 0x00FB340005D40005BC,
  0x00FB350005D50005BC, 0x00FB360005D60005BC, 0x00FB380005D80005BC, 0x00FB390005D90005BC,
  0x00FB3A0005DA0005BC, 0x00FB3B0005DB0005BC, 0x00FB3C0005DC0005BC, 0x00FB3E0005DE0005BC,
  0x00FB400005E00005BC, 0x00FB410005E10005BC, 0x00FB430005E30005BC, 0x00FB440005E40005BC,
  0x00FB460005E60005BC, 0x00FB470005E70005BC, 0x00FB480005E80005BC, 0x00FB490005E90005BC,
  0x00FB4A0005EA0005BC, 0x00FB4B0005D50005B9, 0x00FB4C0005D10005BF, 0x00FB4D0005DB0005BF,
  0x00FB4E0005E40005BF, 0x01109A0110990110BA, 0x01109C01109B0110BA, 0x0110AB0110A50110BA,
  0x01112E011131011127, 0x01112F011132011127, 0x01134B01134701133E, 0x01134C011347011357,
  0x0114BB0114B90114BA, 0x0114BC0114B90114B0, 0x0114BE0114B90114BD, 0x0115BA0115B80115AF,
  0x0115BB0115B90115AF, 0x011938011935011930, 0x01D15E01D15701D165, 0x01D15F01D15801D165,
  0x01D16001D15F01D16E, 0x01D16101D15F01D16F, 0x01D16201D15F01D170, 0x01D16301D15F01D171,
  0x01D16401D15F01D172, 0x01D1BB01D1B901D165, 0x01D1BC01D1BA01D165, 0x01D1BD01D1BB01D16E,
  0x01D1BE01D1BC01D16E, 0x01D1BF01D1BB01D16F, 0x01D1C001D1BC01D16F, 0x02F800004E3D000000,
  0x02F801004E38000000, 0x02F802004E41000000, 0x02F803020122000000, 0x02F804004F60000000,
  0x02F805004FAE000000, 0x02F806004FBB000000, 0x02F807005002000000, 0x02F80800507A000000,
  0x02F809005099000000, 0x02F80A0050E7000000, 0x02F80B0050CF000000, 0x02F80C00349E000000,
  0x02F80D02063A000000, 0x02F80E00514D000000, 0x02F80F005154000000, 0x02F810005164000000]

private def decompositions12 : List Nat := [
  0x02F811005177000000, 0x02F81202051C000000, 0x02F8130034B9000000, 0x02F814005167000000,
  0x02F81500518D000000, 0x02F81602054B000000, 0x02F817005197000000, 0x02F8180051A4000000,
  0x02F819004ECC000000, 0x02F81A0051AC000000, 0x02F81B0051B5000000, 0x02F81C0291DF000000,
  0x02F81D0051F5000000, 0x02F81E005203000000, 0x02F81F0034DF000000, 0x02F82000523B000000,
  0x02F821005246000000, 0x02F822005272000000, 0x02F823005277000000, 0x02F824003515000000,
  0x02F8250052C7000000, 0x02F8260052C9000000, 0x02F8270052E4000000, 0x02F8280052FA000000,
  0x02F829005305000000, 0x02F82A005306000000, 0x02F82B005317000000, 0x02F82C005349000000,
  0x02F82D005351000000, 0x02F82E00535A000000, 0x02F82F005373000000, 0x02F83000537D000000,
  0x02F83100537F000000, 0x02F83200537F000000, 0x02F83300537F000000, 0x02F834020A2C000000,
  0x02F835007070000000, 0x02F8360053CA000000, 0x02F8370053DF000000, 0x02F838020B63000000,
  0x02F8390053EB000000, 0x02F83A0053F1000000, 0x02F83B005406000000, 0x02F83C00549E000000,
  0x02F83D005438000000, 0x02F83E005448000000, 0x02F83F005468000000, 0x02F8400054A2000000,
  0x02F8410054F6000000, 0x02F842005510000000, 0x02F843005553000000, 0x02F844005563000000,
  0x02F845005584000000, 0x02F846005584000000, 0x02F847005599000000, 0x02F8480055AB000000,
  0x02F8490055B3000000, 0x02F84A0055C2000000, 0x02F84B005716000000, 0x02F84C005606000000,
  0x02F84D005717000000, 0x02F84E005651000000, 0x02F84F005674000000, 0x02F850005207000000,
  0x02F8510058EE000000, 0x02F8520057CE000000, 0x02F8530057F4000000, 0x02F85400580D000000,
  0x02F85500578B000000, 0x02F856005832000000, 0x02F857005831000000, 0x02F8580058AC000000,
  0x02F8590214E4000000, 0x02F85A0058F2000000, 0x02F85B0058F7000000, 0x02F85C005906000000,
  0x02F85D00591A000000, 0x02F85E005922000000, 0x02F85F005962000000, 0x02F8600216A8000000,
  0x02F8610216EA000000, 0x02F8620059EC000000, 0x02F863005A1B000000, 0x02F864005A27000000,
  0x02F8650059D8000000, 0x02F866005A66000000, 0x02F8670036EE000000, 0x02F8680036FC000000,
  0x02F869005B08000000, 0x02F86A005B3E000000, 0x02F86B005B3E000000, 0x02F86C0219C8000000,
  0x02F86D005BC3000000, 0x02F86E005BD8000000, 0x02F86F005BE7000000, 0x02F870005BF3000000,
  0x02F871021B18000000, 0x02F872005BFF000000, 0x02F873005C06000000, 0x02F874005F53000000,
  0x02F875005C22000000, 0x02F876003781000000, 0x02F877005C60000000, 0x02F878005C6E000000,
  0x02F879005CC0000000, 0x02F87A005C8D000000, 0x02F87B021DE4000000, 0x02F87C005D43000000,
  0x02F87D021DE6000000, 0x02F87E005D6E000000, 0x02F87F005D6B000000, 0x02F880005D7C000000,
  0x02F881005DE1000000, 0x02F882005DE2000000, 0x02F88300382F000000, 0x02F884005DFD000000,
  0x02F885005E28000000, 0x02F886005E3D000000, 0x02F887005E69000000, 0x02F888003862000000,
  0x02F889022183000000, 0x02F88A00387C000000, 0x02F88B005EB0000000, 0x02F88C005EB3000000,
  0x02F88D005EB6000000, 0x02F88E005ECA000000, 0x02F88F02A392000000, 0x02F890005EFE000000]

private def decompositions13 : List Nat := [
  0x02F891022331000000, 0x02F892022331000000, 0x02F893008201000000, 0x02F894005F22000000,
  0x02F895005F22000000, 0x02F8960038C7000000, 0x02F8970232B8000000, 0x02F8980261DA000000,
  0x02F899005F62000000, 0x02F89A005F6B000000, 0x02F89B0038E3000000, 0x02F89C005F9A000000,
  0x02F89D005FCD000000, 0x02F89E005FD7000000, 0x02F89F005FF9000000, 0x02F8A0006081000000,
  0x02F8A100393A000000, 0x02F8A200391C000000, 0x02F8A3006094000000, 0x02F8A40226D4000000,
  0x02F8A50060C7000000, 0x02F8A6006148000000, 0x02F8A700614C000000, 0x02F8A800614E000000,
  0x02F8A900614C000000, 0x02F8AA00617A000000, 0x02F8AB00618E000000, 0x02F8AC0061B2000000,
  0x02F8AD0061A4000000, 0x02F8AE0061AF000000, 0x02F8AF0061DE000000, 0x02F8B00061F2000000,
  0x02F8B10061F6000000, 0x02F8B2006210000000, 0x02F8B300621B000000, 0x02F8B400625D000000,
  0x02F8B50062B1000000, 0x02F8B60062D4000000, 0x02F8B7006350000000, 0x02F8B8022B0C000000,
  0x02F8B900633D000000, 0x02F8BA0062FC000000, 0x02F8BB006368000000, 0x02F8BC006383000000,
  0x02F8BD0063E4000000, 0x02F8BE022BF1000000, 0x02F8BF006422000000, 0x02F8C00063C5000000,
  0x02F8C10063A9000000, 0x02F8C2003A2E000000, 0x02F8C3006469000000, 0x02F8C400647E000000,
  0x02F8C500649D000000, 0x02F8C6006477000000, 0x02F8C7003A6C000000, 0x02F8C800654F000000,
  0x02F8C900656C000000, 0x02F8CA02300A000000, 0x02F8CB0065E3000000, 0x02F8CC0066F8000000,
  0x02F8CD006649000000, 0x02F8CE003B19000000, 0x02F8CF006691000000, 0x02F8D0003B08000000,
  0x02F8D1003AE4000000, 0x02F8D2005192000000, 0x02F8D3005195000000, 0x02F8D4006700000000,
  0x02F8D500669C000000, 0x02F8D60080AD000000, 0x02F8D70043D9000000, 0x02F8D8006717000000,
  0x02F8D900671B000000, 0x02F8DA006721000000, 0x02F8DB00675E000000, 0x02F8DC006753000000,
  0x02F8DD0233C3000000, 0x02F8DE003B49000000, 0x02F8DF0067FA000000, 0x02F8E0006785000000,
  0x02F8E1006852000000, 0x02F8E2006885000000, 0x02F8E302346D000000, 0x02F8E400688E000000,
  0x02F8E500681F000000, 0x02F8E6006914000000, 0x02F8E7003B9D000000, 0x02F8E8006942000000,
  0x02F8E90069A3000000, 0x02F8EA0069EA000000, 0x02F8EB006AA8000000, 0x02F8EC0236A3000000,
  0x02F8ED006ADB000000, 0x02F8EE003C18000000, 0x02F8EF006B21000000, 0x02F8F00238A7000000,
  0x02F8F1006B54000000, 0x02F8F2003C4E000000, 0x02F8F3006B72000000, 0x02F8F4006B9F000000,
  0x02F8F5006BBA000000, 0x02F8F6006BBB000000, 0x02F8F7023A8D000000, 0x02F8F8021D0B000000,
  0x02F8F9023AFA000000, 0x02F8FA006C4E000000, 0x02F8FB023CBC000000, 0x02F8FC006CBF000000,
  0x02F8FD006CCD000000, 0x02F8FE006C67000000, 0x02F8FF006D16000000, 0x02F900006D3E000000,
  0x02F901006D77000000, 0x02F902006D41000000, 0x02F903006D69000000, 0x02F904006D78000000,
  0x02F905006D85000000, 0x02F906023D1E000000, 0x02F907006D34000000, 0x02F908006E2F000000,
  0x02F909006E6E000000, 0x02F90A003D33000000, 0x02F90B006ECB000000, 0x02F90C006EC7000000,
  0x02F90D023ED1000000, 0x02F90E006DF9000000, 0x02F90F006F6E000000, 0x02F910023F5E000000]

private def decompositions14 : List Nat := [
  0x02F911023F8E000000, 0x02F912006FC6000000, 0x02F913007039000000, 0x02F91400701E000000,
  0x02F91500701B000000, 0x02F916003D96000000, 0x02F91700704A000000, 0x02F91800707D000000,
  0x02F919007077000000, 0x02F91A0070AD000000, 0x02F91B020525000000, 0x02F91C007145000000,
  0x02F91D024263000000, 0x02F91E00719C000000, 0x02F91F0243AB000000, 0x02F920007228000000,
  0x02F921007235000000, 0x02F922007250000000, 0x02F923024608000000, 0x02F924007280000000,
  0x02F925007295000000, 0x02F926024735000000, 0x02F927024814000000, 0x02F92800737A000000,
  0x02F92900738B000000, 0x02F92A003EAC000000, 0x02F92B0073A5000000, 0x02F92C003EB8000000,
  0x02F92D003EB8000000, 0x02F92E007447000000, 0x02F92F00745C000000, 0x02F930007471000000,
  0x02F931007485000000, 0x02F9320074CA000000, 0x02F933003F1B000000, 0x02F934007524000000,
  0x02F935024C36000000, 0x02F93600753E000000, 0x02F937024C92000000, 0x02F938007570000000,
  0x02F93902219F000000, 0x02F93A007610000000, 0x02F93B024FA1000000, 0x02F93C024FB8000000,
  0x02F93D025044000000, 0x02F93E003FFC000000, 0x02F93F004008000000, 0x02F9400076F4000000,
  0x02F9410250F3000000, 0x02F9420250F2000000, 0x02F943025119000000, 0x02F944025133000000,
  0x02F94500771E000000, 0x02F94600771F000000, 0x02F94700771F000000, 0x02F94800774A000000,
  0x02F949004039000000, 0x02F94A00778B000000, 0x02F94B004046000000, 0x02F94C004096000000,
  0x02F94D02541D000000, 0x02F94E00784E000000, 0x02F94F00788C000000, 0x02F9500078CC000000,
  0x02F9510040E3000000, 0x02F952025626000000, 0x02F953007956000000, 0x02F95402569A000000,
  0x02F9550256C5000000, 0x02F95600798F000000, 0x02F9570079EB000000, 0x02F95800412F000000,
  0x02F959007A40000000, 0x02F95A007A4A000000, 0x02F95B007A4F000000, 0x02F95C02597C000000,
  0x02F95D025AA7000000, 0x02F95E025AA7000000, 0x02F95F007AEE000000, 0x02F960004202000000,
  0x02F961025BAB000000, 0x02F962007BC6000000, 0x02F963007BC9000000, 0x02F964004227000000,
  0x02F965025C80000000, 0x02F966007CD2000000, 0x02F9670042A0000000, 0x02F968007CE8000000,
  0x02F969007CE3000000, 0x02F96A007D00000000, 0x02F96B025F86000000, 0x02F96C007D63000000,
  0x02F96D004301000000, 0x02F96E007DC7000000, 0x02F96F007E02000000, 0x02F970007E45000000,
  0x02F971004334000000, 0x02F972026228000000, 0x02F973026247000000, 0x02F974004359000000,
  0x02F9750262D9000000, 0x02F976007F7A000000, 0x02F97702633E000000, 0x02F978007F95000000,
  0x02F979007FFA000000, 0x02F97A008005000000, 0x02F97B0264DA000000, 0x02F97C026523000000,
  0x02F97D008060000000, 0x02F97E0265A8000000, 0x02F97F008070000000, 0x02F98002335F000000,
  0x02F9810043D5000000, 0x02F9820080B2000000, 0x02F983008103000000, 0x02F98400440B000000,
  0x02F98500813E000000, 0x02F986005AB5000000, 0x02F9870267A7000000, 0x02F9880267B5000000,
  0x02F989023393000000, 0x02F98A02339C000000, 0x02F98B008201000000, 0x02F98C008204000000,
  0x02F98D008F9E000000, 0x02F98E00446B000000, 0x02F98F008291000000, 0x02F99000828B000000]

private def decompositions15 : List Nat := [
  0x02F99100829D000000, 0x02F9920052B3000000, 0x02F9930082B1000000, 0x02F9940082B3000000,
  0x02F9950082BD000000, 0x02F9960082E6000000, 0x02F997026B3C000000, 0x02F9980082E5000000,
  0x02F99900831D000000, 0x02F99A008363000000, 0x02F99B0083AD000000, 0x02F99C008323000000,
  0x02F99D0083BD000000, 0x02F99E0083E7000000, 0x02F99F008457000000, 0x02F9A0008353000000,
  0x02F9A10083CA000000, 0x02F9A20083CC000000, 0x02F9A30083DC000000, 0x02F9A4026C36000000,
  0x02F9A5026D6B000000, 0x02F9A6026CD5000000, 0x02F9A700452B000000, 0x02F9A80084F1000000,
  0x02F9A90084F3000000, 0x02F9AA008516000000, 0x02F9AB0273CA000000, 0x02F9AC008564000000,
  0x02F9AD026F2C000000, 0x02F9AE00455D000000, 0x02F9AF004561000000, 0x02F9B0026FB1000000,
  0x02F9B10270D2000000, 0x02F9B200456B000000, 0x02F9B3008650000000, 0x02F9B400865C000000,
  0x02F9B5008667000000, 0x02F9B6008669000000, 0x02F9B70086A9000000, 0x02F9B8008688000000,
  0x02F9B900870E000000, 0x02F9BA0086E2000000, 0x02F9BB008779000000, 0x02F9BC008728000000,
  0x02F9BD00876B000000, 0x02F9BE008786000000, 0x02F9BF0045D7000000, 0x02F9C00087E1000000,
  0x02F9C1008801000000, 0x02F9C20045F9000000, 0x02F9C3008860000000, 0x02F9C4008863000000,
  0x02F9C5027667000000, 0x02F9C60088D7000000, 0x02F9C70088DE000000, 0x02F9C8004635000000,
  0x02F9C90088FA000000, 0x02F9CA0034BB000000, 0x02F9CB0278AE000000, 0x02F9CC027966000000,
  0x02F9CD0046BE000000, 0x02F9CE0046C7000000, 0x02F9CF008AA0000000, 0x02F9D0008AED000000,
  0x02F9D1008B8A000000, 0x02F9D2008C55000000, 0x02F9D3027CA8000000, 0x02F9D4008CAB000000,
  0x02F9D5008CC1000000, 0x02F9D6008D1B000000, 0x02F9D7008D77000000, 0x02F9D8027F2F000000,
  0x02F9D9020804000000, 0x02F9DA008DCB000000, 0x02F9DB008DBC000000, 0x02F9DC008DF0000000,
  0x02F9DD0208DE000000, 0x02F9DE008ED4000000, 0x02F9DF008F38000000, 0x02F9E00285D2000000,
  0x02F9E10285ED000000, 0x02F9E2009094000000, 0x02F9E30090F1000000, 0x02F9E4009111000000,
  0x02F9E502872E000000, 0x02F9E600911B000000, 0x02F9E7009238000000, 0x02F9E80092D7000000,
  0x02F9E90092D8000000, 0x02F9EA00927C000000, 0x02F9EB0093F9000000, 0x02F9EC009415000000,
  0x02F9ED028BFA000000, 0x02F9EE00958B000000, 0x02F9EF004995000000, 0x02F9F00095B7000000,
  0x02F9F1028D77000000, 0x02F9F20049E6000000, 0x02F9F30096C3000000, 0x02F9F4005DB2000000,
  0x02F9F5009723000000, 0x02F9F6029145000000, 0x02F9F702921A000000, 0x02F9F8004A6E000000,
  0x02F9F9004A76000000, 0x02F9FA0097E0000000, 0x02F9FB02940A000000, 0x02F9FC004AB2000000,
  0x02F9FD029496000000, 0x02F9FE00980B000000, 0x02F9FF00980B000000, 0x02FA00009829000000,
  0x02FA010295B6000000, 0x02FA020098E2000000, 0x02FA03004B33000000, 0x02FA04009929000000,
  0x02FA050099A7000000, 0x02FA060099C2000000, 0x02FA070099FE000000, 0x02FA08004BCE000000,
  0x02FA09029B30000000, 0x02FA0A009B12000000, 0x02FA0B009C40000000, 0x02FA0C009CFD000000,
  0x02FA0D004CCE000000, 0x02FA0E004CED000000, 0x02FA0F009D67000000, 0x02FA1002A0CE000000]

private def decompositions16 : List Nat := [
  0x02FA11004CF8000000, 0x02FA1202A105000000, 0x02FA1302A20E000000, 0x02FA1402A291000000,
  0x02FA15009EBB000000, 0x02FA16004D56000000, 0x02FA17009EF9000000, 0x02FA18009EFE000000,
  0x02FA19009F05000000, 0x02FA1A009F0F000000, 0x02FA1B009F16000000, 0x02FA1C009F3B000000,
  0x02FA1D02A600000000]

/-- Every canonical decomposition in one step, by character. -/
def decompositions : List Nat :=
  decompositions0 ++ decompositions1 ++ decompositions2 ++ decompositions3 ++
  decompositions4 ++ decompositions5 ++ decompositions6 ++ decompositions7 ++
  decompositions8 ++ decompositions9 ++ decompositions10 ++ decompositions11 ++
  decompositions12 ++ decompositions13 ++ decompositions14 ++ decompositions15 ++
  decompositions16

/-- The characters that decompose into two parts and are not composed from them. -/
def uncomposed : List Nat := [
  0x0344, 0x0958, 0x0959, 0x095A, 0x095B, 0x095C, 0x095D, 0x095E, 0x095F, 0x09DC,
  0x09DD, 0x09DF, 0x0A33, 0x0A36, 0x0A59, 0x0A5A, 0x0A5B, 0x0A5E, 0x0B5C, 0x0B5D,
  0x0F43, 0x0F4D, 0x0F52, 0x0F57, 0x0F5C, 0x0F69, 0x0F73, 0x0F75, 0x0F76, 0x0F78,
  0x0F81, 0x0F93, 0x0F9D, 0x0FA2, 0x0FA7, 0x0FAC, 0x0FB9, 0x2ADC, 0xFB1D, 0xFB1F,
  0xFB2A, 0xFB2B, 0xFB2C, 0xFB2D, 0xFB2E, 0xFB2F, 0xFB30, 0xFB31, 0xFB32, 0xFB33,
  0xFB34, 0xFB35, 0xFB36, 0xFB38, 0xFB39, 0xFB3A, 0xFB3B, 0xFB3C, 0xFB3E, 0xFB40,
  0xFB41, 0xFB43, 0xFB44, 0xFB46, 0xFB47, 0xFB48, 0xFB49, 0xFB4A, 0xFB4B, 0xFB4C,
  0xFB4D, 0xFB4E, 0x1D15E, 0x1D15F, 0x1D160, 0x1D161, 0x1D162, 0x1D163, 0x1D164, 0x1D1BB,
  0x1D1BC, 0x1D1BD, 0x1D1BE, 0x1D1BF, 0x1D1C0]

end CommitChain.Text.Normal
