import YdbTest.Access

namespace YdbTest.Collation

open Access

/-- `gtm_descriptor`: a length, and the memory from `val` on, which goes on after the length. -/
structure Descriptor where
  len : Nat
  val : Nat → UInt8

def Descriptor.bytes (d : Descriptor) : List UInt8 := (List.range d.len).map d.val

/-- What a call returns, the `*dstlen` and `dst->len` it leaves and the memory it has used. -/
structure Outcome where
  code : Nat
  dstlen : Option Nat
  len : Nat
  mem : Mem

def SUCCESS : Nat := 0
def MYAPPS_SUBSC2LONG : Nat := 12345678
def ERR_BADCHAR : Nat := 0x87658765
def ERR_SUB2LONG : Nat := 150375154

def start (src dst : Descriptor) : Mem := ⟨src.val, dst.val, [], []⟩

def lookup (table : List Nat) (b : UInt8) : UInt8 := UInt8.ofNat (table.getD b.toNat 0)

/-- The function of a plugin with a table: after the bound test every byte goes through the
table, and some of the plugins then end the output with a NUL. -/
def byTable (table : List Nat) (nul : Bool) (src dst : Descriptor) : Outcome :=
  if src.len > dst.len then ⟨MYAPPS_SUBSC2LONG, none, dst.len, start src dst⟩
  else
    let m := (start src dst).copy (lookup table) src.len 0
    ⟨SUCCESS, some src.len, dst.len, if nul then m.store src.len 0 else m⟩

namespace col_polish

def xform_table : List Nat :=
  [0, 1, 2, 3, 4, 5, 6, 7, 8, 9, 10, 11, 12, 13, 14, 15, 16, 17, 18, 19,
   20, 21, 22, 23, 24, 25, 26, 27, 28, 29, 30, 31, 32, 33, 34, 35, 36, 37, 38, 39,
   40, 41, 42, 43, 44, 45, 46, 47, 48, 49, 50, 51, 52, 53, 54, 55, 56, 57, 58, 59,
   60, 61, 62, 63, 64, 70, 78, 82, 90, 97, 104, 106, 108, 112, 116, 118, 122, 128, 131, 139,
   146, 148, 152, 158, 166, 174, 180, 182, 184, 187, 191, 197, 198, 199, 200, 201, 202, 65, 77, 79,
   87, 93, 103, 105, 107, 109, 115, 117, 119, 127, 129, 135, 145, 147, 149, 155, 163, 169, 179, 181,
   183, 185, 189, 203, 204, 205, 206, 220, 221, 222, 223, 224, 225, 226, 227, 228, 229, 230, 231, 232,
   233, 234, 235, 236, 237, 238, 239, 240, 241, 242, 243, 244, 245, 246, 247, 248, 249, 250, 251, 252,
   253, 76, 207, 126, 208, 123, 162, 209, 210, 159, 160, 167, 194, 211, 192, 196, 212, 75, 213, 125,
   214, 120, 161, 215, 216, 156, 157, 164, 193, 217, 190, 195, 153, 71, 72, 73, 74, 124, 86, 83,
   84, 98, 102, 99, 100, 113, 114, 91, 92, 134, 132, 144, 140, 141, 142, 218, 154, 175, 176, 177,
   178, 188, 168, 254, 150, 66, 67, 68, 69, 121, 85, 80, 81, 94, 101, 95, 96, 110, 111, 88,
   89, 133, 130, 143, 136, 137, 138, 219, 151, 170, 171, 172, 173, 186, 165, 255]

def inverse_table : List Nat :=
  [0, 1, 2, 3, 4, 5, 6, 7, 8, 9, 10, 11, 12, 13, 14, 15, 16, 17, 18, 19,
   20, 21, 22, 23, 24, 25, 26, 27, 28, 29, 30, 31, 32, 33, 34, 35, 36, 37, 38, 39,
   40, 41, 42, 43, 44, 45, 46, 47, 48, 49, 50, 51, 52, 53, 54, 55, 56, 57, 58, 59,
   60, 61, 62, 63, 64, 97, 225, 226, 227, 228, 65, 193, 194, 195, 196, 177, 161, 98, 66, 99,
   231, 232, 67, 199, 200, 230, 198, 100, 239, 240, 68, 207, 208, 101, 233, 235, 236, 69, 201, 203,
   204, 234, 202, 102, 70, 103, 71, 104, 72, 105, 237, 238, 73, 205, 206, 106, 74, 107, 75, 108,
   181, 229, 76, 165, 197, 179, 163, 109, 77, 110, 242, 78, 210, 241, 209, 111, 244, 245, 246, 79,
   212, 213, 214, 243, 211, 112, 80, 113, 81, 114, 224, 248, 82, 192, 216, 115, 185, 186, 83, 169,
   170, 182, 166, 116, 187, 254, 84, 171, 222, 117, 249, 250, 251, 252, 85, 217, 218, 219, 220, 118,
   86, 119, 87, 120, 88, 121, 253, 89, 221, 122, 190, 90, 174, 188, 172, 191, 175, 91, 92, 93,
   94, 95, 96, 123, 124, 125, 126, 162, 164, 167, 168, 173, 176, 178, 180, 183, 184, 189, 215, 247,
   127, 128, 129, 130, 131, 132, 133, 134, 135, 136, 137, 138, 139, 140, 141, 142, 143, 144, 145, 146,
   147, 148, 149, 150, 151, 152, 153, 154, 155, 156, 157, 158, 159, 160, 223, 255]

def gtm_ac_xform (src dst : Descriptor) : Outcome := byTable xform_table true src dst

def gtm_ac_xback (src dst : Descriptor) : Outcome := byTable inverse_table true src dst

end col_polish

namespace col_polish_rev

def xform_table : List Nat :=
  [0, 1, 2, 3, 4, 5, 6, 7, 8, 9, 10, 11, 12, 13, 14, 15, 16, 17, 18, 19,
   20, 21, 22, 23, 24, 25, 26, 27, 28, 29, 30, 31, 32, 33, 34, 35, 36, 37, 38, 39,
   40, 41, 42, 43, 44, 45, 46, 47, 48, 49, 50, 51, 52, 53, 54, 55, 56, 57, 58, 59,
   60, 61, 62, 63, 64, 97, 225, 226, 227, 228, 65, 193, 194, 195, 196, 177, 161, 98, 66, 99,
   231, 232, 67, 199, 200, 230, 198, 100, 239, 240, 68, 207, 208, 101, 233, 235, 236, 69, 201, 203,
   204, 234, 202, 102, 70, 103, 71, 104, 72, 105, 237, 238, 73, 205, 206, 106, 74, 107, 75, 108,
   181, 229, 76, 165, 197, 179, 163, 109, 77, 110, 242, 78, 210, 241, 209, 111, 244, 245, 246, 79,
   212, 213, 214, 243, 211, 112, 80, 113, 81, 114, 224, 248, 82, 192, 216, 115, 185, 186, 83, 169,
   170, 182, 166, 116, 187, 254, 84, 171, 222, 117, 249, 250, 251, 252, 85, 217, 218, 219, 220, 118,
   86, 119, 87, 120, 88, 121, 253, 89, 221, 122, 190, 90, 174, 188, 172, 191, 175, 91, 92, 93,
   94, 95, 96, 123, 124, 125, 126, 162, 164, 167, 168, 173, 176, 178, 180, 183, 184, 189, 215, 247,
   127, 128, 129, 130, 131, 132, 133, 134, 135, 136, 137, 138, 139, 140, 141, 142, 143, 144, 145, 146,
   147, 148, 149, 150, 151, 152, 153, 154, 155, 156, 157, 158, 159, 160, 223, 255]

def inverse_table : List Nat :=
  [0, 1, 2, 3, 4, 5, 6, 7, 8, 9, 10, 11, 12, 13, 14, 15, 16, 17, 18, 19,
   20, 21, 22, 23, 24, 25, 26, 27, 28, 29, 30, 31, 32, 33, 34, 35, 36, 37, 38, 39,
   40, 41, 42, 43, 44, 45, 46, 47, 48, 49, 50, 51, 52, 53, 54, 55, 56, 57, 58, 59,
   60, 61, 62, 63, 64, 70, 78, 82, 90, 97, 104, 106, 108, 112, 116, 118, 122, 128, 131, 139,
   146, 148, 152, 158, 166, 174, 180, 182, 184, 187, 191, 197, 198, 199, 200, 201, 202, 65, 77, 79,
   87, 93, 103, 105, 107, 109, 115, 117, 119, 127, 129, 135, 145, 147, 149, 155, 163, 169, 179, 181,
   183, 185, 189, 203, 204, 205, 206, 220, 221, 222, 223, 224, 225, 226, 227, 228, 229, 230, 231, 232,
   233, 234, 235, 236, 237, 238, 239, 240, 241, 242, 243, 244, 245, 246, 247, 248, 249, 250, 251, 252,
   253, 76, 207, 126, 208, 123, 162, 209, 210, 159, 160, 167, 194, 211, 192, 196, 212, 75, 213, 125,
   214, 120, 161, 215, 216, 156, 157, 164, 193, 217, 190, 195, 153, 71, 72, 73, 74, 124, 86, 83,
   84, 98, 102, 99, 100, 113, 114, 91, 92, 134, 132, 144, 140, 141, 142, 218, 154, 175, 176, 177,
   178, 188, 168, 254, 150, 66, 67, 68, 69, 121, 85, 80, 81, 94, 101, 95, 96, 110, 111, 88,
   89, 133, 130, 143, 136, 137, 138, 219, 151, 170, 171, 172, 173, 186, 165, 255]

def gtm_ac_xform (src dst : Descriptor) : Outcome := byTable xform_table true src dst

def gtm_ac_xback (src dst : Descriptor) : Outcome := byTable inverse_table true src dst

end col_polish_rev

namespace col_straight

def xform_table : List Nat :=
  [0, 1, 2, 3, 4, 5, 6, 7, 8, 9, 10, 11, 12, 13, 14, 15,
   16, 17, 18, 19, 20, 21, 22, 23, 24, 25, 26, 27, 28, 29, 30, 31,
   32, 33, 34, 35, 36, 37, 38, 39, 40, 41, 42, 43, 44, 45, 46, 47,
   48, 49, 50, 51, 52, 53, 54, 55, 56, 57, 58, 59, 60, 61, 62, 63,
   64, 65, 66, 67, 68, 69, 70, 71, 72, 73, 74, 75, 76, 77, 78, 79,
   80, 81, 82, 83, 84, 85, 86, 87, 88, 89, 90, 91, 92, 93, 94, 95,
   96, 97, 98, 99, 100, 101, 102, 103, 104, 105, 106, 107, 108, 109, 110, 111,
   112, 113, 114, 115, 116, 117, 118, 119, 120, 121, 122, 123, 124, 125, 126, 127,
   128, 129, 130, 131, 132, 133, 134, 135, 136, 137, 138, 139, 140, 141, 142, 143,
   144, 145, 146, 147, 148, 149, 150, 151, 152, 153, 154, 155, 156, 157, 158, 159,
   160, 161, 162, 163, 164, 165, 166, 167, 168, 169, 170, 171, 172, 173, 174, 175,
   176, 177, 178, 179, 180, 181, 182, 183, 184, 185, 186, 187, 188, 189, 190, 191,
   192, 193, 194, 195, 196, 197, 198, 199, 200, 201, 202, 203, 204, 205, 206, 207,
   208, 209, 210, 211, 212, 213, 214, 215, 216, 217, 218, 219, 220, 221, 222, 223,
   224, 225, 226, 227, 228, 229, 230, 231, 232, 233, 234, 235, 236, 237, 238, 239,
   240, 241, 242, 243, 244, 245, 246, 247, 248, 249, 250, 251, 252, 253, 254, 255]

def inverse_table : List Nat :=
  [0, 1, 2, 3, 4, 5, 6, 7, 8, 9, 10, 11, 12, 13, 14, 15,
   16, 17, 18, 19, 20, 21, 22, 23, 24, 25, 26, 27, 28, 29, 30, 31,
   32, 33, 34, 35, 36, 37, 38, 39, 40, 41, 42, 43, 44, 45, 46, 47,
   48, 49, 50, 51, 52, 53, 54, 55, 56, 57, 58, 59, 60, 61, 62, 63,
   64, 65, 66, 67, 68, 69, 70, 71, 72, 73, 74, 75, 76, 77, 78, 79,
   80, 81, 82, 83, 84, 85, 86, 87, 88, 89, 90, 91, 92, 93, 94, 95,
   96, 97, 98, 99, 100, 101, 102, 103, 104, 105, 106, 107, 108, 109, 110, 111,
   112, 113, 114, 115, 116, 117, 118, 119, 120, 121, 122, 123, 124, 125, 126, 127,
   128, 129, 130, 131, 132, 133, 134, 135, 136, 137, 138, 139, 140, 141, 142, 143,
   144, 145, 146, 147, 148, 149, 150, 151, 152, 153, 154, 155, 156, 157, 158, 159,
   160, 161, 162, 163, 164, 165, 166, 167, 168, 169, 170, 171, 172, 173, 174, 175,
   176, 177, 178, 179, 180, 181, 182, 183, 184, 185, 186, 187, 188, 189, 190, 191,
   192, 193, 194, 195, 196, 197, 198, 199, 200, 201, 202, 203, 204, 205, 206, 207,
   208, 209, 210, 211, 212, 213, 214, 215, 216, 217, 218, 219, 220, 221, 222, 223,
   224, 225, 226, 227, 228, 229, 230, 231, 232, 233, 234, 235, 236, 237, 238, 239,
   240, 241, 242, 243, 244, 245, 246, 247, 248, 249, 250, 251, 252, 253, 254, 255]

def gtm_ac_xform (src dst : Descriptor) : Outcome := byTable xform_table false src dst

def gtm_ac_xback (src dst : Descriptor) : Outcome := byTable inverse_table false src dst

end col_straight

namespace col_reverse

def xform_table : List Nat :=
  [255, 254, 253, 252, 251, 250, 249, 248, 247, 246, 245, 244, 243, 242, 241, 240,
   239, 238, 237, 236, 235, 234, 233, 232, 231, 230, 229, 228, 227, 226, 225, 224,
   223, 222, 221, 220, 219, 218, 217, 216, 215, 214, 213, 212, 211, 210, 209, 208,
   207, 206, 205, 204, 203, 202, 201, 200, 199, 198, 197, 196, 195, 194, 193, 192,
   191, 190, 189, 188, 187, 186, 185, 184, 183, 182, 181, 180, 179, 178, 177, 176,
   175, 174, 173, 172, 171, 170, 169, 168, 167, 166, 165, 164, 163, 162, 161, 160,
   159, 158, 157, 156, 155, 154, 153, 152, 151, 150, 149, 148, 147, 146, 145, 144,
   143, 142, 141, 140, 139, 138, 137, 136, 135, 134, 133, 132, 131, 130, 129, 128,
   127, 126, 125, 124, 123, 122, 121, 120, 119, 118, 117, 116, 115, 114, 113, 112,
   111, 110, 109, 108, 107, 106, 105, 104, 103, 102, 101, 100, 99, 98, 97, 96,
   95, 94, 93, 92, 91, 90, 89, 88, 87, 86, 85, 84, 83, 82, 81, 80,
   79, 78, 77, 76, 75, 74, 73, 72, 71, 70, 69, 68, 67, 66, 65, 64,
   63, 62, 61, 60, 59, 58, 57, 56, 55, 54, 53, 52, 51, 50, 49, 48,
   47, 46, 45, 44, 43, 42, 41, 40, 39, 38, 37, 36, 35, 34, 33, 32,
   31, 30, 29, 28, 27, 26, 25, 24, 23, 22, 21, 20, 19, 18, 17, 16,
   15, 14, 13, 12, 11, 10, 9, 8, 7, 6, 5, 4, 3, 2, 1, 0]

def inverse_table : List Nat :=
  [255, 254, 253, 252, 251, 250, 249, 248, 247, 246, 245, 244, 243, 242, 241, 240,
   239, 238, 237, 236, 235, 234, 233, 232, 231, 230, 229, 228, 227, 226, 225, 224,
   223, 222, 221, 220, 219, 218, 217, 216, 215, 214, 213, 212, 211, 210, 209, 208,
   207, 206, 205, 204, 203, 202, 201, 200, 199, 198, 197, 196, 195, 194, 193, 192,
   191, 190, 189, 188, 187, 186, 185, 184, 183, 182, 181, 180, 179, 178, 177, 176,
   175, 174, 173, 172, 171, 170, 169, 168, 167, 166, 165, 164, 163, 162, 161, 160,
   159, 158, 157, 156, 155, 154, 153, 152, 151, 150, 149, 148, 147, 146, 145, 144,
   143, 142, 141, 140, 139, 138, 137, 136, 135, 134, 133, 132, 131, 130, 129, 128,
   127, 126, 125, 124, 123, 122, 121, 120, 119, 118, 117, 116, 115, 114, 113, 112,
   111, 110, 109, 108, 107, 106, 105, 104, 103, 102, 101, 100, 99, 98, 97, 96,
   95, 94, 93, 92, 91, 90, 89, 88, 87, 86, 85, 84, 83, 82, 81, 80,
   79, 78, 77, 76, 75, 74, 73, 72, 71, 70, 69, 68, 67, 66, 65, 64,
   63, 62, 61, 60, 59, 58, 57, 56, 55, 54, 53, 52, 51, 50, 49, 48,
   47, 46, 45, 44, 43, 42, 41, 40, 39, 38, 37, 36, 35, 34, 33, 32,
   31, 30, 29, 28, 27, 26, 25, 24, 23, 22, 21, 20, 19, 18, 17, 16,
   15, 14, 13, 12, 11, 10, 9, 8, 7, 6, 5, 4, 3, 2, 1, 0]

def gtm_ac_xform (src dst : Descriptor) : Outcome := byTable xform_table false src dst

def gtm_ac_xback (src dst : Descriptor) : Outcome := byTable inverse_table false src dst

end col_reverse

namespace col_complex

def text (s : String) : List UInt8 := s.toList.map fun c => UInt8.ofNat c.toNat

def badchar : List UInt8 := text "please return BADCHAR"
def sub2long : List UInt8 := text "please return SUB2LONG"

def swap (ch : UInt8) : UInt8 := if ch = 97 then 98 else if ch = 98 then 97 else ch

/-- The loop of both functions: `maxdstlen` is set, but nothing compares with it. -/
def swapped (src dst : Descriptor) (m : Mem) : Outcome :=
  ⟨SUCCESS, some src.len, dst.len, m.copy swap src.len 0⟩

def gtm_ac_xform (src dst : Descriptor) : Outcome :=
  let r := (start src dst).strncmp badchar 21 0
  if r.1 then ⟨ERR_BADCHAR, none, dst.len, r.2⟩
  else
    let r := r.2.strncmp sub2long 22 0
    if r.1 then ⟨ERR_SUB2LONG, none, dst.len, r.2⟩
    else swapped src dst r.2

def gtm_ac_xback (src dst : Descriptor) : Outcome := swapped src dst (start src dst)

end col_complex

namespace col_chinese

/-- What `iconv` has written when it returns, with `errno` when it returns -1. -/
structure Conversion where
  written : List UInt8
  errno : Option Nat

/-- The C library's `iconv_open` (with its `errno` when it fails) and `iconv`, which get the two
character sets, the input bytes and the room for the output; and an environment variable. -/
structure System where
  iconv_open : String → String → Option Nat
  iconv : String → String → List UInt8 → Nat → Conversion
  gtm_test_linux_distrib : Option String

/-- What is documented of them: a failure sets `errno`, and no more is written than there is
room for. -/
structure System.Documented (sys : System) : Prop where
  iconv_open_errno {tocode fromcode : String} {e : Nat} :
    sys.iconv_open tocode fromcode = some e → e ≠ 0
  iconv_errno {tocode fromcode : String} {inbuf : List UInt8} {outbytesleft e : Nat} :
    (sys.iconv tocode fromcode inbuf outbytesleft).errno = some e → e ≠ 0
  written_le (tocode fromcode : String) (inbuf : List UInt8) (outbytesleft : Nat) :
    (sys.iconv tocode fromcode inbuf outbytesleft).written.length ≤ outbytesleft

variable (sys : System)

def convert (tocode fromcode : String) (src dst : Descriptor) : Outcome :=
  match sys.iconv_open tocode fromcode with
  | some errno => ⟨errno, none, dst.len, start src dst⟩
  | none =>
    let conved := sys.iconv tocode fromcode src.bytes dst.len
    let m := ((start src dst).loads src.len).put conved.written 0
    let outbytesleft := dst.len - conved.written.length
    match conved.errno with
    | some errno => ⟨errno, none, dst.len, m⟩
    | none => ⟨SUCCESS, some (dst.len - outbytesleft), dst.len, m.store conved.written.length 0⟩

def conv_from_chset : String :=
  if sys.gtm_test_linux_distrib = some "alpine" then "gb18030" else "GB18030"

def conv_to_chset : String :=
  if sys.gtm_test_linux_distrib = some "alpine" then "utf8" else "UTF-8"

def gtm_ac_xform (src dst : Descriptor) : Outcome :=
  convert sys (conv_from_chset sys) (conv_to_chset sys) src dst

def gtm_ac_xback (src dst : Descriptor) : Outcome := convert sys "UTF-8" "GB18030" src dst

end col_chinese

namespace col_unicode_numeric

def turn (i : Nat) (m : Mem) : Mem :=
  if m.dst i ≠ 224 ∨ m.dst (i + 1) ≠ 165 then m
  else m.store (i + 2) (UInt8.ofNat (341 - (m.dst (i + 2)).toNat))

/-- `for (i=0; i < srclength; i+=3)`. -/
def turns (srclength i : Nat) (m : Mem) : Mem :=
  if i < srclength then turns srclength (i + 3) (turn i m) else m
termination_by srclength - i

/-- Null pointers are `none`. -/
def hindinumreverse (src dst : Option Descriptor) : Outcome :=
  match dst with
  | none => ⟨MYAPPS_SUBSC2LONG, none, 0, start (src.getD ⟨0, fun _ => 0⟩) ⟨0, fun _ => 0⟩⟩
  | some dst =>
    let zeros := List.replicate dst.len 0
    match src with
    | none => ⟨SUCCESS, some 0, 0, (start ⟨0, fun _ => 0⟩ dst).put zeros 0⟩
    | some src =>
      let m := (start src dst).put zeros 0
      if src.len = 0 then ⟨SUCCESS, some 0, 0, m⟩
      else if src.len > dst.len then ⟨MYAPPS_SUBSC2LONG, none, dst.len, m⟩
      else
        let srcbuf := m.strncpy src.len 0
        let m := srcbuf.2.put srcbuf.1 0
        ⟨SUCCESS, some src.len, src.len, turns src.len 0 m⟩

def gtm_ac_xform (src dst : Descriptor) : Outcome := hindinumreverse (some src) (some dst)

def gtm_ac_xback (src dst : Descriptor) : Outcome := hindinumreverse (some src) (some dst)

end col_unicode_numeric

inductive Plugin
  | col_polish | col_polish_rev | col_complex | col_chinese | col_straight | col_reverse
  | col_unicode_numeric

open col_chinese (System)

def gtm_ac_xform (sys : System) : Plugin → Descriptor → Descriptor → Outcome
  | .col_polish => col_polish.gtm_ac_xform
  | .col_polish_rev => col_polish_rev.gtm_ac_xform
  | .col_complex => col_complex.gtm_ac_xform
  | .col_chinese => col_chinese.gtm_ac_xform sys
  | .col_straight => col_straight.gtm_ac_xform
  | .col_reverse => col_reverse.gtm_ac_xform
  | .col_unicode_numeric => col_unicode_numeric.gtm_ac_xform

def gtm_ac_xback (sys : System) : Plugin → Descriptor → Descriptor → Outcome
  | .col_polish => col_polish.gtm_ac_xback
  | .col_polish_rev => col_polish_rev.gtm_ac_xback
  | .col_complex => col_complex.gtm_ac_xback
  | .col_chinese => col_chinese.gtm_ac_xback sys
  | .col_straight => col_straight.gtm_ac_xback
  | .col_reverse => col_reverse.gtm_ac_xback
  | .col_unicode_numeric => col_unicode_numeric.gtm_ac_xback

end YdbTest.Collation
