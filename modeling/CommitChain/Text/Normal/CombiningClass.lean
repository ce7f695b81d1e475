/-!
# Canonical combining classes

The characters whose combining class in Unicode 14 is not zero, as ranges.  An entry packs the first
and the last character of a range, six hexadecimal digits each, and the class in two.
-/

namespace CommitChain.Text.Normal

private def classes0 : List Nat := [
  0x000300000314E6, 0x000315000315E8, 0x000316000319DC, 0x00031A00031AE8, 0x00031B00031BD8,
  0x00031C000320DC, 0x000321000322CA, 0x000323000326DC, 0x000327000328CA, 0x000329000333DC,
  0x00033400033801, 0x00033900033CDC, 0x00033D000344E6, 0x000345000345F0, 0x000346000346E6,
  0x000347000349DC, 0x00034A00034CE6, 0x00034D00034EDC, 0x000350000352E6, 0x000353000356DC,
  0x000357000357E6, 0x000358000358E8, 0x00035900035ADC, 0x00035B00035BE6, 0x00035C00035CE9,
  0x00035D00035EEA, 0x00035F00035FE9, 0x000360000361EA, 0x000362000362E9, 0x00036300036FE6,
  0x000483000487E6, 0x000591000591DC, 0x000592000595E6, 0x000596000596DC, 0x000597000599E6,
  0x00059A00059ADE, 0x00059B00059BDC, 0x00059C0005A1E6, 0x0005A20005A7DC, 0x0005A80005A9E6,
  0x0005AA0005AADC, 0x0005AB0005ACE6, 0x0005AD0005ADDE, 0x0005AE0005AEE4, 0x0005AF0005AFE6,
  0x0005B00005B00A, 0x0005B10005B10B, 0x0005B20005B20C, 0x0005B30005B30D, 0x0005B40005B40E,
  0x0005B50005B50F, 0x0005B60005B610, 0x0005B70005B711, 0x0005B80005B812, 0x0005B90005BA13,
  0x0005BB0005BB14, 0x0005BC0005BC15, 0x0005BD0005BD16, 0x0005BF0005BF17, 0x0005C10005C118,
  0x0005C20005C219, 0x0005C40005C4E6, 0x0005C50005C5DC, 0x0005C70005C712, 0x000610000617E6,
  0x0006180006181E, 0x0006190006191F, 0x00061A00061A20, 0x00064B00064B1B, 0x00064C00064C1C,
  0x00064D00064D1D, 0x00064E00064E1E, 0x00064F00064F1F, 0x00065000065020, 0x00065100065121,
  0x00065200065222, 0x000653000654E6, 0x000655000656DC, 0x00065700065BE6, 0x00065C00065CDC,
  0x00065D00065EE6, 0x00065F00065FDC, 0x00067000067023, 0x0006D60006DCE6, 0x0006DF0006E2E6,
  0x0006E30006E3DC, 0x0006E40006E4E6, 0x0006E70006E8E6, 0x0006EA0006EADC, 0x0006EB0006ECE6,
  0x0006ED0006EDDC, 0x00071100071124, 0x000730000730E6, 0x000731000731DC, 0x000732000733E6,
  0x000734000734DC, 0x000735000736E6, 0x000737000739DC, 0x00073A00073AE6, 0x00073B00073CDC,
  0x00073D00073DE6, 0x00073E00073EDC, 0x00073F000741E6, 0x000742000742DC, 0x000743000743E6,
  0x000744000744DC, 0x000745000745E6, 0x000746000746DC, 0x000747000747E6, 0x000748000748DC,
  0x00074900074AE6, 0x0007EB0007F1E6, 0x0007F20007F2DC, 0x0007F30007F3E6, 0x0007FD0007FDDC,
  0x000816000819E6, 0x00081B000823E6, 0x000825000827E6, 0x00082900082DE6, 0x00085900085BDC,
  0x000898000898E6, 0x00089900089BDC, 0x00089C00089FE6, 0x0008CA0008CEE6, 0x0008CF0008D3DC,
  0x0008D40008E1E6, 0x0008E30008E3DC, 0x0008E40008E5E6]

private def classes1 : List Nat := [
  0x0008E60008E6DC, 0x0008E70008E8E6, 0x0008E90008E9DC, 0x0008EA0008ECE6, 0x0008ED0008EFDC,
  0x0008F00008F01B, 0x0008F10008F11C, 0x0008F20008F21D, 0x0008F30008F5E6, 0x0008F60008F6DC,
  0x0008F70008F8E6, 0x0008F90008FADC, 0x0008FB0008FFE6, 0x00093C00093C07, 0x00094D00094D09,
  0x000951000951E6, 0x000952000952DC, 0x000953000954E6, 0x0009BC0009BC07, 0x0009CD0009CD09,
  0x0009FE0009FEE6, 0x000A3C000A3C07, 0x000A4D000A4D09, 0x000ABC000ABC07, 0x000ACD000ACD09,
  0x000B3C000B3C07, 0x000B4D000B4D09, 0x000BCD000BCD09, 0x000C3C000C3C07, 0x000C4D000C4D09,
  0x000C55000C5554, 0x000C56000C565B, 0x000CBC000CBC07, 0x000CCD000CCD09, 0x000D3B000D3C09,
  0x000D4D000D4D09, 0x000DCA000DCA09, 0x000E38000E3967, 0x000E3A000E3A09, 0x000E48000E4B6B,
  0x000EB8000EB976, 0x000EBA000EBA09, 0x000EC8000ECB7A, 0x000F18000F19DC, 0x000F35000F35DC,
  0x000F37000F37DC, 0x000F39000F39D8, 0x000F71000F7181, 0x000F72000F7282, 0x000F74000F7484,
  0x000F7A000F7D82, 0x000F80000F8082, 0x000F82000F83E6, 0x000F84000F8409, 0x000F86000F87E6,
  0x000FC6000FC6DC, 0x00103700103707, 0x00103900103A09, 0x00108D00108DDC, 0x00135D00135FE6,
  0x00171400171509, 0x00173400173409, 0x0017D20017D209, 0x0017DD0017DDE6, 0x0018A90018A9E4,
  0x001939001939DE, 0x00193A00193AE6, 0x00193B00193BDC, 0x001A17001A17E6, 0x001A18001A18DC,
  0x001A60001A6009, 0x001A75001A7CE6, 0x001A7F001A7FDC, 0x001AB0001AB4E6, 0x001AB5001ABADC,
  0x001ABB001ABCE6, 0x001ABD001ABDDC, 0x001ABF001AC0DC, 0x001AC1001AC2E6, 0x001AC3001AC4DC,
  0x001AC5001AC9E6, 0x001ACA001ACADC, 0x001ACB001ACEE6, 0x001B34001B3407, 0x001B44001B4409,
  0x001B6B001B6BE6, 0x001B6C001B6CDC, 0x001B6D001B73E6, 0x001BAA001BAB09, 0x001BE6001BE607,
  0x001BF2001BF309, 0x001C37001C3707, 0x001CD0001CD2E6, 0x001CD4001CD401, 0x001CD5001CD9DC,
  0x001CDA001CDBE6, 0x001CDC001CDFDC, 0x001CE0001CE0E6, 0x001CE2001CE801, 0x001CED001CEDDC,
  0x001CF4001CF4E6, 0x001CF8001CF9E6, 0x001DC0001DC1E6, 0x001DC2001DC2DC, 0x001DC3001DC9E6,
  0x001DCA001DCADC, 0x001DCB001DCCE6, 0x001DCD001DCDEA, 0x001DCE001DCED6, 0x001DCF001DCFDC,
  0x001DD0001DD0CA, 0x001DD1001DF5E6, 0x001DF6001DF6E8, 0x001DF7001DF8E4, 0x001DF9001DF9DC,
  0x001DFA001DFADA, 0x001DFB001DFBE6, 0x001DFC001DFCE9, 0x001DFD001DFDDC, 0x001DFE001DFEE6,
  0x001DFF001DFFDC, 0x0020D00020D1E6, 0x0020D20020D301, 0x0020D40020D7E6, 0x0020D80020DA01,
  0x0020DB0020DCE6, 0x0020E10020E1E6, 0x0020E50020E601]

private def classes2 : List Nat := [
  0x0020E70020E7E6, 0x0020E80020E8DC, 0x0020E90020E9E6, 0x0020EA0020EB01, 0x0020EC0020EFDC,
  0x0020F00020F0E6, 0x002CEF002CF1E6, 0x002D7F002D7F09, 0x002DE0002DFFE6, 0x00302A00302ADA,
  0x00302B00302BE4, 0x00302C00302CE8, 0x00302D00302DDE, 0x00302E00302FE0, 0x00309900309A08,
  0x00A66F00A66FE6, 0x00A67400A67DE6, 0x00A69E00A69FE6, 0x00A6F000A6F1E6, 0x00A80600A80609,
  0x00A82C00A82C09, 0x00A8C400A8C409, 0x00A8E000A8F1E6, 0x00A92B00A92DDC, 0x00A95300A95309,
  0x00A9B300A9B307, 0x00A9C000A9C009, 0x00AAB000AAB0E6, 0x00AAB200AAB3E6, 0x00AAB400AAB4DC,
  0x00AAB700AAB8E6, 0x00AABE00AABFE6, 0x00AAC100AAC1E6, 0x00AAF600AAF609, 0x00ABED00ABED09,
  0x00FB1E00FB1E1A, 0x00FE2000FE26E6, 0x00FE2700FE2DDC, 0x00FE2E00FE2FE6, 0x0101FD0101FDDC,
  0x0102E00102E0DC, 0x01037601037AE6, 0x010A0D010A0DDC, 0x010A0F010A0FE6, 0x010A38010A38E6,
  0x010A39010A3901, 0x010A3A010A3ADC, 0x010A3F010A3F09, 0x010AE5010AE5E6, 0x010AE6010AE6DC,
  0x010D24010D27E6, 0x010EAB010EACE6, 0x010F46010F47DC, 0x010F48010F4AE6, 0x010F4B010F4BDC,
  0x010F4C010F4CE6, 0x010F4D010F50DC, 0x010F82010F82E6, 0x010F83010F83DC, 0x010F84010F84E6,
  0x010F85010F85DC, 0x01104601104609, 0x01107001107009, 0x01107F01107F09, 0x0110B90110B909,
  0x0110BA0110BA07, 0x011100011102E6, 0x01113301113409, 0x01117301117307, 0x0111C00111C009,
  0x0111CA0111CA07, 0x01123501123509, 0x01123601123607, 0x0112E90112E907, 0x0112EA0112EA09,
  0x01133B01133C07, 0x01134D01134D09, 0x01136601136CE6, 0x011370011374E6, 0x01144201144209,
  0x01144601144607, 0x01145E01145EE6, 0x0114C20114C209, 0x0114C30114C307, 0x0115BF0115BF09,
  0x0115C00115C007, 0x01163F01163F09, 0x0116B60116B609, 0x0116B70116B707, 0x01172B01172B09,
  0x01183901183909, 0x01183A01183A07, 0x01193D01193E09, 0x01194301194307, 0x0119E00119E009,
  0x011A34011A3409, 0x011A47011A4709, 0x011A99011A9909, 0x011C3F011C3F09, 0x011D42011D4207,
  0x011D44011D4509, 0x011D97011D9709, 0x016AF0016AF401, 0x016B30016B36E6, 0x016FF0016FF106,
  0x01BC9E01BC9E01, 0x01D16501D166D8, 0x01D16701D16901, 0x01D16D01D16DE2, 0x01D16E01D172D8,
  0x01D17B01D182DC, 0x01D18501D189E6, 0x01D18A01D18BDC, 0x01D1AA01D1ADE6, 0x01D24201D244E6,
  0x01E00001E006E6, 0x01E00801E018E6, 0x01E01B01E021E6, 0x01E02301E024E6, 0x01E02601E02AE6,
  0x01E13001E136E6, 0x01E2AE01E2AEE6, 0x01E2EC01E2EFE6, 0x01E8D001E8D6DC, 0x01E94401E949E6,
  0x01E94A01E94A07]

/-- The ranges of characters with a combining class other than zero, in ascending order. -/
def classRanges : List Nat := classes0 ++ classes1 ++ classes2

end CommitChain.Text.Normal
