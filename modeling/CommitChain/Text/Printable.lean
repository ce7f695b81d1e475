/-!
# Printable characters

A character is printable if it is neither a control, format, private or unassigned code of
Unicode 14 nor a separator other than the space.  An entry of the table packs the first and the last
character of a range of characters that are not, six hexadecimal digits each.
-/

namespace CommitChain.Text

private def unprintable0 : List Nat := [
  0x00000000001F, 0x00007F0000A0, 0x0000AD0000AD, 0x000378000379, 0x000380000383, 0x00038B00038B,
  0x00038D00038D, 0x0003A20003A2, 0x000530000530, 0x000557000558, 0x00058B00058C, 0x000590000590,
  0x0005C80005CF, 0x0005EB0005EE, 0x0005F5000605, 0x00061C00061C, 0x0006DD0006DD, 0x00070E00070F,
  0x00074B00074C, 0x0007B20007BF, 0x0007FB0007FC, 0x00082E00082F, 0x00083F00083F, 0x00085C00085D,
  0x00085F00085F, 0x00086B00086F, 0x00088F000897, 0x0008E20008E2, 0x000984000984, 0x00098D00098E,
  0x000991000992, 0x0009A90009A9, 0x0009B10009B1, 0x0009B30009B5, 0x0009BA0009BB, 0x0009C50009C6,
  0x0009C90009CA, 0x0009CF0009D6, 0x0009D80009DB, 0x0009DE0009DE, 0x0009E40009E5, 0x0009FF000A00,
  0x000A04000A04, 0x000A0B000A0E, 0x000A11000A12, 0x000A29000A29, 0x000A31000A31, 0x000A34000A34,
  0x000A37000A37, 0x000A3A000A3B, 0x000A3D000A3D, 0x000A43000A46, 0x000A49000A4A, 0x000A4E000A50,
  0x000A52000A58, 0x000A5D000A5D, 0x000A5F000A65, 0x000A77000A80, 0x000A84000A84, 0x000A8E000A8E,
  0x000A92000A92, 0x000AA9000AA9, 0x000AB1000AB1, 0x000AB4000AB4, 0x000ABA000ABB, 0x000AC6000AC6,
  0x000ACA000ACA, 0x000ACE000ACF, 0x000AD1000ADF, 0x000AE4000AE5, 0x000AF2000AF8, 0x000B00000B00,
  0x000B04000B04, 0x000B0D000B0E, 0x000B11000B12, 0x000B29000B29, 0x000B31000B31, 0x000B34000B34,
  0x000B3A000B3B, 0x000B45000B46, 0x000B49000B4A, 0x000B4E000B54, 0x000B58000B5B, 0x000B5E000B5E,
  0x000B64000B65, 0x000B78000B81, 0x000B84000B84, 0x000B8B000B8D, 0x000B91000B91, 0x000B96000B98,
  0x000B9B000B9B, 0x000B9D000B9D, 0x000BA0000BA2, 0x000BA5000BA7, 0x000BAB000BAD, 0x000BBA000BBD,
  0x000BC3000BC5, 0x000BC9000BC9, 0x000BCE000BCF, 0x000BD1000BD6, 0x000BD8000BE5, 0x000BFB000BFF,
  0x000C0D000C0D, 0x000C11000C11, 0x000C29000C29, 0x000C3A000C3B, 0x000C45000C45, 0x000C49000C49,
  0x000C4E000C54, 0x000C57000C57, 0x000C5B000C5C, 0x000C5E000C5F, 0x000C64000C65, 0x000C70000C76,
  0x000C8D000C8D, 0x000C91000C91, 0x000CA9000CA9, 0x000CB4000CB4, 0x000CBA000CBB, 0x000CC5000CC5,
  0x000CC9000CC9, 0x000CCE000CD4, 0x000CD7000CDC, 0x000CDF000CDF, 0x000CE4000CE5, 0x000CF0000CF0,
  0x000CF3000CFF, 0x000D0D000D0D]

private def unprintable1 : List Nat := [
  0x000D11000D11, 0x000D45000D45, 0x000D49000D49, 0x000D50000D53, 0x000D64000D65, 0x000D80000D80,
  0x000D84000D84, 0x000D97000D99, 0x000DB2000DB2, 0x000DBC000DBC, 0x000DBE000DBF, 0x000DC7000DC9,
  0x000DCB000DCE, 0x000DD5000DD5, 0x000DD7000DD7, 0x000DE0000DE5, 0x000DF0000DF1, 0x000DF5000E00,
  0x000E3B000E3E, 0x000E5C000E80, 0x000E83000E83, 0x000E85000E85, 0x000E8B000E8B, 0x000EA4000EA4,
  0x000EA6000EA6, 0x000EBE000EBF, 0x000EC5000EC5, 0x000EC7000EC7, 0x000ECE000ECF, 0x000EDA000EDB,
  0x000EE0000EFF, 0x000F48000F48, 0x000F6D000F70, 0x000F98000F98, 0x000FBD000FBD, 0x000FCD000FCD,
  0x000FDB000FFF, 0x0010C60010C6, 0x0010C80010CC, 0x0010CE0010CF, 0x001249001249, 0x00124E00124F,
  0x001257001257, 0x001259001259, 0x00125E00125F, 0x001289001289, 0x00128E00128F, 0x0012B10012B1,
  0x0012B60012B7, 0x0012BF0012BF, 0x0012C10012C1, 0x0012C60012C7, 0x0012D70012D7, 0x001311001311,
  0x001316001317, 0x00135B00135C, 0x00137D00137F, 0x00139A00139F, 0x0013F60013F7, 0x0013FE0013FF,
  0x001680001680, 0x00169D00169F, 0x0016F90016FF, 0x00171600171E, 0x00173700173F, 0x00175400175F,
  0x00176D00176D, 0x001771001771, 0x00177400177F, 0x0017DE0017DF, 0x0017EA0017EF, 0x0017FA0017FF,
  0x00180E00180E, 0x00181A00181F, 0x00187900187F, 0x0018AB0018AF, 0x0018F60018FF, 0x00191F00191F,
  0x00192C00192F, 0x00193C00193F, 0x001941001943, 0x00196E00196F, 0x00197500197F, 0x0019AC0019AF,
  0x0019CA0019CF, 0x0019DB0019DD, 0x001A1C001A1D, 0x001A5F001A5F, 0x001A7D001A7E, 0x001A8A001A8F,
  0x001A9A001A9F, 0x001AAE001AAF, 0x001ACF001AFF, 0x001B4D001B4F, 0x001B7F001B7F, 0x001BF4001BFB,
  0x001C38001C3A, 0x001C4A001C4C, 0x001C89001C8F, 0x001CBB001CBC, 0x001CC8001CCF, 0x001CFB001CFF,
  0x001F16001F17, 0x001F1E001F1F, 0x001F46001F47, 0x001F4E001F4F, 0x001F58001F58, 0x001F5A001F5A,
  0x001F5C001F5C, 0x001F5E001F5E, 0x001F7E001F7F, 0x001FB5001FB5, 0x001FC5001FC5, 0x001FD4001FD5,
  0x001FDC001FDC, 0x001FF0001FF1, 0x001FF5001FF5, 0x001FFF00200F, 0x00202800202F, 0x00205F00206F,
  0x002072002073, 0x00208F00208F, 0x00209D00209F, 0x0020C10020CF, 0x0020F10020FF, 0x00218C00218F,
  0x00242700243F, 0x00244B00245F]

private def unprintable2 : List Nat := [
  0x002B74002B75, 0x002B96002B96, 0x002CF4002CF8, 0x002D26002D26, 0x002D28002D2C, 0x002D2E002D2F,
  0x002D68002D6E, 0x002D71002D7E, 0x002D97002D9F, 0x002DA7002DA7, 0x002DAF002DAF, 0x002DB7002DB7,
  0x002DBF002DBF, 0x002DC7002DC7, 0x002DCF002DCF, 0x002DD7002DD7, 0x002DDF002DDF, 0x002E5E002E7F,
  0x002E9A002E9A, 0x002EF4002EFF, 0x002FD6002FEF, 0x002FFC003000, 0x003040003040, 0x003097003098,
  0x003100003104, 0x003130003130, 0x00318F00318F, 0x0031E40031EF, 0x00321F00321F, 0x00A48D00A48F,
  0x00A4C700A4CF, 0x00A62C00A63F, 0x00A6F800A6FF, 0x00A7CB00A7CF, 0x00A7D200A7D2, 0x00A7D400A7D4,
  0x00A7DA00A7F1, 0x00A82D00A82F, 0x00A83A00A83F, 0x00A87800A87F, 0x00A8C600A8CD, 0x00A8DA00A8DF,
  0x00A95400A95E, 0x00A97D00A97F, 0x00A9CE00A9CE, 0x00A9DA00A9DD, 0x00A9FF00A9FF, 0x00AA3700AA3F,
  0x00AA4E00AA4F, 0x00AA5A00AA5B, 0x00AAC300AADA, 0x00AAF700AB00, 0x00AB0700AB08, 0x00AB0F00AB10,
  0x00AB1700AB1F, 0x00AB2700AB27, 0x00AB2F00AB2F, 0x00AB6C00AB6F, 0x00ABEE00ABEF, 0x00ABFA00ABFF,
  0x00D7A400D7AF, 0x00D7C700D7CA, 0x00D7FC00F8FF, 0x00FA6E00FA6F, 0x00FADA00FAFF, 0x00FB0700FB12,
  0x00FB1800FB1C, 0x00FB3700FB37, 0x00FB3D00FB3D, 0x00FB3F00FB3F, 0x00FB4200FB42, 0x00FB4500FB45,
  0x00FBC300FBD2, 0x00FD9000FD91, 0x00FDC800FDCE, 0x00FDD000FDEF, 0x00FE1A00FE1F, 0x00FE5300FE53,
  0x00FE6700FE67, 0x00FE6C00FE6F, 0x00FE7500FE75, 0x00FEFD00FF00, 0x00FFBF00FFC1, 0x00FFC800FFC9,
  0x00FFD000FFD1, 0x00FFD800FFD9, 0x00FFDD00FFDF, 0x00FFE700FFE7, 0x00FFEF00FFFB, 0x00FFFE00FFFF,
  0x01000C01000C, 0x010027010027, 0x01003B01003B, 0x01003E01003E, 0x01004E01004F, 0x01005E01007F,
  0x0100FB0100FF, 0x010103010106, 0x010134010136, 0x01018F01018F, 0x01019D01019F, 0x0101A10101CF,
  0x0101FE01027F, 0x01029D01029F, 0x0102D10102DF, 0x0102FC0102FF, 0x01032401032C, 0x01034B01034F,
  0x01037B01037F, 0x01039E01039E, 0x0103C40103C7, 0x0103D60103FF, 0x01049E01049F, 0x0104AA0104AF,
  0x0104D40104D7, 0x0104FC0104FF, 0x01052801052F, 0x01056401056E, 0x01057B01057B, 0x01058B01058B,
  0x010593010593, 0x010596010596, 0x0105A20105A2, 0x0105B20105B2, 0x0105BA0105BA, 0x0105BD0105FF,
  0x01073701073F, 0x01075601075F]

private def unprintable3 : List Nat := [
  0x01076801077F, 0x010786010786, 0x0107B10107B1, 0x0107BB0107FF, 0x010806010807, 0x010809010809,
  0x010836010836, 0x01083901083B, 0x01083D01083E, 0x010856010856, 0x01089F0108A6, 0x0108B00108DF,
  0x0108F30108F3, 0x0108F60108FA, 0x01091C01091E, 0x01093A01093E, 0x01094001097F, 0x0109B80109BB,
  0x0109D00109D1, 0x010A04010A04, 0x010A07010A0B, 0x010A14010A14, 0x010A18010A18, 0x010A36010A37,
  0x010A3B010A3E, 0x010A49010A4F, 0x010A59010A5F, 0x010AA0010ABF, 0x010AE7010AEA, 0x010AF7010AFF,
  0x010B36010B38, 0x010B56010B57, 0x010B73010B77, 0x010B92010B98, 0x010B9D010BA8, 0x010BB0010BFF,
  0x010C49010C7F, 0x010CB3010CBF, 0x010CF3010CF9, 0x010D28010D2F, 0x010D3A010E5F, 0x010E7F010E7F,
  0x010EAA010EAA, 0x010EAE010EAF, 0x010EB2010EFF, 0x010F28010F2F, 0x010F5A010F6F, 0x010F8A010FAF,
  0x010FCC010FDF, 0x010FF7010FFF, 0x01104E011051, 0x01107601107E, 0x0110BD0110BD, 0x0110C30110CF,
  0x0110E90110EF, 0x0110FA0110FF, 0x011135011135, 0x01114801114F, 0x01117701117F, 0x0111E00111E0,
  0x0111F50111FF, 0x011212011212, 0x01123F01127F, 0x011287011287, 0x011289011289, 0x01128E01128E,
  0x01129E01129E, 0x0112AA0112AF, 0x0112EB0112EF, 0x0112FA0112FF, 0x011304011304, 0x01130D01130E,
  0x011311011312, 0x011329011329, 0x011331011331, 0x011334011334, 0x01133A01133A, 0x011345011346,
  0x01134901134A, 0x01134E01134F, 0x011351011356, 0x01135801135C, 0x011364011365, 0x01136D01136F,
  0x0113750113FF, 0x01145C01145C, 0x01146201147F, 0x0114C80114CF, 0x0114DA01157F, 0x0115B60115B7,
  0x0115DE0115FF, 0x01164501164F, 0x01165A01165F, 0x01166D01167F, 0x0116BA0116BF, 0x0116CA0116FF,
  0x01171B01171C, 0x01172C01172F, 0x0117470117FF, 0x01183C01189F, 0x0118F30118FE, 0x011907011908,
  0x01190A01190B, 0x011914011914, 0x011917011917, 0x011936011936, 0x01193901193A, 0x01194701194F,
  0x01195A01199F, 0x0119A80119A9, 0x0119D80119D9, 0x0119E50119FF, 0x011A48011A4F, 0x011AA3011AAF,
  0x011AF9011BFF, 0x011C09011C09, 0x011C37011C37, 0x011C46011C4F, 0x011C6D011C6F, 0x011C90011C91,
  0x011CA8011CA8, 0x011CB7011CFF, 0x011D07011D07, 0x011D0A011D0A, 0x011D37011D39, 0x011D3B011D3B,
  0x011D3E011D3E, 0x011D48011D4F]

private def unprintable4 : List Nat := [
  0x011D5A011D5F, 0x011D66011D66, 0x011D69011D69, 0x011D8F011D8F, 0x011D92011D92, 0x011D99011D9F,
  0x011DAA011EDF, 0x011EF9011FAF, 0x011FB1011FBF, 0x011FF2011FFE, 0x01239A0123FF, 0x01246F01246F,
  0x01247501247F, 0x012544012F8F, 0x012FF3012FFF, 0x01342F0143FF, 0x0146470167FF, 0x016A39016A3F,
  0x016A5F016A5F, 0x016A6A016A6D, 0x016ABF016ABF, 0x016ACA016ACF, 0x016AEE016AEF, 0x016AF6016AFF,
  0x016B46016B4F, 0x016B5A016B5A, 0x016B62016B62, 0x016B78016B7C, 0x016B90016E3F, 0x016E9B016EFF,
  0x016F4B016F4E, 0x016F88016F8E, 0x016FA0016FDF, 0x016FE5016FEF, 0x016FF2016FFF, 0x0187F80187FF,
  0x018CD6018CFF, 0x018D0901AFEF, 0x01AFF401AFF4, 0x01AFFC01AFFC, 0x01AFFF01AFFF, 0x01B12301B14F,
  0x01B15301B163, 0x01B16801B16F, 0x01B2FC01BBFF, 0x01BC6B01BC6F, 0x01BC7D01BC7F, 0x01BC8901BC8F,
  0x01BC9A01BC9B, 0x01BCA001CEFF, 0x01CF2E01CF2F, 0x01CF4701CF4F, 0x01CFC401CFFF, 0x01D0F601D0FF,
  0x01D12701D128, 0x01D17301D17A, 0x01D1EB01D1FF, 0x01D24601D2DF, 0x01D2F401D2FF, 0x01D35701D35F,
  0x01D37901D3FF, 0x01D45501D455, 0x01D49D01D49D, 0x01D4A001D4A1, 0x01D4A301D4A4, 0x01D4A701D4A8,
  0x01D4AD01D4AD, 0x01D4BA01D4BA, 0x01D4BC01D4BC, 0x01D4C401D4C4, 0x01D50601D506, 0x01D50B01D50C,
  0x01D51501D515, 0x01D51D01D51D, 0x01D53A01D53A, 0x01D53F01D53F, 0x01D54501D545, 0x01D54701D549,
  0x01D55101D551, 0x01D6A601D6A7, 0x01D7CC01D7CD, 0x01DA8C01DA9A, 0x01DAA001DAA0, 0x01DAB001DEFF,
  0x01DF1F01DFFF, 0x01E00701E007, 0x01E01901E01A, 0x01E02201E022, 0x01E02501E025, 0x01E02B01E0FF,
  0x01E12D01E12F, 0x01E13E01E13F, 0x01E14A01E14D, 0x01E15001E28F, 0x01E2AF01E2BF, 0x01E2FA01E2FE,
  0x01E30001E7DF, 0x01E7E701E7E7, 0x01E7EC01E7EC, 0x01E7EF01E7EF, 0x01E7FF01E7FF, 0x01E8C501E8C6,
  0x01E8D701E8FF, 0x01E94C01E94F, 0x01E95A01E95D, 0x01E96001EC70, 0x01ECB501ED00, 0x01ED3E01EDFF,
  0x01EE0401EE04, 0x01EE2001EE20, 0x01EE2301EE23, 0x01EE2501EE26, 0x01EE2801EE28, 0x01EE3301EE33,
  0x01EE3801EE38, 0x01EE3A01EE3A, 0x01EE3C01EE41, 0x01EE4301EE46, 0x01EE4801EE48, 0x01EE4A01EE4A,
  0x01EE4C01EE4C, 0x01EE5001EE50, 0x01EE5301EE53, 0x01EE5501EE56, 0x01EE5801EE58, 0x01EE5A01EE5A,
  0x01EE5C01EE5C, 0x01EE5E01EE5E]

private def unprintable5 : List Nat := [
  0x01EE6001EE60, 0x01EE6301EE63, 0x01EE6501EE66, 0x01EE6B01EE6B, 0x01EE7301EE73, 0x01EE7801EE78,
  0x01EE7D01EE7D, 0x01EE7F01EE7F, 0x01EE8A01EE8A, 0x01EE9C01EEA0, 0x01EEA401EEA4, 0x01EEAA01EEAA,
  0x01EEBC01EEEF, 0x01EEF201EFFF, 0x01F02C01F02F, 0x01F09401F09F, 0x01F0AF01F0B0, 0x01F0C001F0C0,
  0x01F0D001F0D0, 0x01F0F601F0FF, 0x01F1AE01F1E5, 0x01F20301F20F, 0x01F23C01F23F, 0x01F24901F24F,
  0x01F25201F25F, 0x01F26601F2FF, 0x01F6D801F6DC, 0x01F6ED01F6EF, 0x01F6FD01F6FF, 0x01F77401F77F,
  0x01F7D901F7DF, 0x01F7EC01F7EF, 0x01F7F101F7FF, 0x01F80C01F80F, 0x01F84801F84F, 0x01F85A01F85F,
  0x01F88801F88F, 0x01F8AE01F8AF, 0x01F8B201F8FF, 0x01FA5401FA5F, 0x01FA6E01FA6F, 0x01FA7501FA77,
  0x01FA7D01FA7F, 0x01FA8701FA8F, 0x01FAAD01FAAF, 0x01FABB01FABF, 0x01FAC601FACF, 0x01FADA01FADF,
  0x01FAE801FAEF, 0x01FAF701FAFF, 0x01FB9301FB93, 0x01FBCB01FBEF, 0x01FBFA01FFFF, 0x02A6E002A6FF,
  0x02B73902B73F, 0x02B81E02B81F, 0x02CEA202CEAF, 0x02EBE102F7FF, 0x02FA1E02FFFF, 0x03134B0E00FF,
  0x0E01F010FFFF]

/-- The ranges of characters that are not printable, in ascending order. -/
def unprintableRanges : List Nat :=
  unprintable0 ++ unprintable1 ++ unprintable2 ++ unprintable3 ++ unprintable4 ++
  unprintable5

/-- Whether `c` is written as it is in a quoted text. -/
def isPrintable (c : Char) : Bool :=
  if c.toNat < 0x7F then 0x20 ≤ c.toNat
  else !unprintableRanges.any fun r => r / 0x1000000 ≤ c.toNat && c.toNat ≤ r % 0x1000000

end CommitChain.Text
