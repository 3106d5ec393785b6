import Namespacer.Text.Alphanumeric
import Namespacer.Text.Quoted

/-!
# Encodings

How texts are written as bytes and read back. A codec is any way to do so;
the encodings here are five that are chosen by their names, and names are
compared loosely. What cannot be read or written is reported with the place
where it stands and the reason.
-/

namespace Namespacer

/-- A list of bytes. -/
abbrev Bytes := List UInt8

/-- An encoding of texts. -/
inductive Encoding where
  /-- One byte for each of the first 256 code points. -/
  | latin1
  /-- One to four bytes for each code point. -/
  | utf8
  /-- The same, after a byte order mark. -/
  | markedUtf8
  /-- One byte for each of the first 128 code points. -/
  | ascii
  /-- One byte for each of a selection of code points. -/
  | windows1252
deriving DecidableEq, Repr

namespace Encoding

/-! ## Names -/

/-- Writes a name in lower case with underscores for what is neither letter,
digit nor dot. `started` says that something was written before, `gap` that
something was passed over since. -/
def looseNameFrom (started gap : Bool) : Text → Text
  | [] => []
  | c :: rest =>
    if Text.isAlphanumeric c || c == '.' then
      let bridge := if started && gap then ['_'] else []
      let own := if c.toNat < 128 then [c.toLower] else []
      bridge ++ own ++ looseNameFrom (started || !own.isEmpty) false rest
    else looseNameFrom started true rest

/-- The form in which names of encodings are compared. -/
def looseName (name : Text) : Text := looseNameFrom false false name

/-- The names of an encoding in the form in which they are compared. -/
def names : Encoding → List String
  | latin1 => ["latin_1", "8859", "cp819", "csisolatin1", "ibm819", "iso8859", "iso8859_1",
      "iso_8859_1", "iso_8859_1_1987", "iso_ir_100", "l1", "latin", "latin1"]
  | utf8 => ["utf_8", "cp65001", "u8", "utf", "utf8", "utf8_ucs2", "utf8_ucs4"]
  | markedUtf8 => ["utf_8_sig"]
  | ascii => ["ascii", "646", "ansi_x3.4_1968", "ansi_x3_4_1968", "ansi_x3.4_1986", "cp367",
      "csascii", "ibm367", "iso646_us", "iso_646.irv_1991", "iso_ir_6", "us", "us_ascii"]
  | windows1252 => ["cp1252", "1252", "windows_1252"]

/-- The encoding with a name. -/
def ofName? (name : Text) : Option Encoding :=
  let loose := looseName name
  [latin1, utf8, markedUtf8, ascii, windows1252].find? fun encoding =>
    encoding.names.any fun known => known.toList == loose

/-- The word for an encoding in messages. -/
def label : Encoding → Text
  | latin1 => "latin-1"
  | utf8 => "utf-8"
  | markedUtf8 => "utf-8"
  | ascii => "ascii"
  | windows1252 => "charmap"

/-! ## Single bytes -/

/-- The code points of the bytes from 128 to 159 in `windows1252`. Zero stands
for none. -/
def windowsTable : List Nat :=
  [0x20AC, 0, 0x201A, 0x0192, 0x201E, 0x2026, 0x2020, 0x2021,
    0x02C6, 0x2030, 0x0160, 0x2039, 0x0152, 0, 0x017D, 0,
    0, 0x2018, 0x2019, 0x201C, 0x201D, 0x2022, 0x2013, 0x2014,
    0x02DC, 0x2122, 0x0161, 0x203A, 0x0153, 0, 0x017E, 0x0178]

/-- The code point of a byte in an encoding of one byte to a character. -/
def code? (encoding : Encoding) (byte : Nat) : Option Nat :=
  match encoding with
  | ascii => if byte < 128 then some byte else none
  | windows1252 =>
    if 128 ≤ byte ∧ byte < 160 then (windowsTable[byte - 128]?).filter (· != 0) else some byte
  | _ => some byte

/-- The byte of a code point in an encoding of one byte to a character. -/
def byte? (encoding : Encoding) (code : Nat) : Option Nat :=
  match encoding with
  | ascii => if code < 128 then some code else none
  | windows1252 =>
    if code < 128 ∨ (160 ≤ code ∧ code < 256) then some code
    else if code = 0 then none
    else (windowsTable.findIdx? (· == code)).map (128 + ·)
  | _ => if code < 256 then some code else none

/-! ## Reading -/

/-- Why bytes cannot be read. -/
inductive DecodeReason where
  | invalidStart
  | invalidContinuation
  | endOfData
  | outOfRange
  | undefined
deriving DecidableEq, Repr

/-- The words for a reason. -/
def DecodeReason.text : DecodeReason → Text
  | invalidStart => "invalid start byte"
  | invalidContinuation => "invalid continuation byte"
  | endOfData => "unexpected end of data"
  | outOfRange => "ordinal not in range(128)"
  | undefined => "character maps to <undefined>"

/-- Bytes that cannot be read. -/
structure DecodeFault where
  /-- The word for the encoding. -/
  label : Text
  /-- The first of the bytes. -/
  byte : UInt8
  position : Nat
  /-- The number of the bytes. -/
  count : Nat
  /-- The words for the reason. -/
  reason : Text
deriving DecidableEq, Repr

/-- The number of bytes that follow a leading byte, the bits that it
contributes, and the least and the greatest byte that may come next. -/
def leadOf? (byte : Nat) : Option (Nat × Nat × Nat × Nat) :=
  if byte < 0x80 then some (0, byte, 0, 0)
  else if byte < 0xC2 then none
  else if byte < 0xE0 then some (1, byte - 0xC0, 0x80, 0xBF)
  else if byte = 0xE0 then some (2, 0, 0xA0, 0xBF)
  else if byte = 0xED then some (2, 0xD, 0x80, 0x9F)
  else if byte < 0xF0 then some (2, byte - 0xE0, 0x80, 0xBF)
  else if byte = 0xF0 then some (3, 0, 0x90, 0xBF)
  else if byte < 0xF4 then some (3, byte - 0xF0, 0x80, 0xBF)
  else if byte = 0xF4 then some (3, 4, 0x80, 0x8F)
  else none

/-- Reads the bytes that are due after a leading byte: the code point, or the
number of bytes that belong together and the reason why they break off. -/
def readTail (low high value : Nat) :
    (due taken : Nat) → Bytes → Except (Nat × DecodeReason) Nat
  | 0, _, _ => .ok value
  | _ + 1, taken, [] => .error (taken, .endOfData)
  | due + 1, taken, byte :: rest =>
    if low ≤ byte.toNat ∧ byte.toNat ≤ high then
      readTail 0x80 0xBF (64 * value + (byte.toNat - 0x80)) due (taken + 1) rest
    else .error (taken, .invalidContinuation)

/-- Reads one code point: the number of bytes after the leading one, and the
code point. -/
def readScalar (byte : UInt8) (rest : Bytes) : Except (Nat × DecodeReason) (Nat × Nat) :=
  match leadOf? byte.toNat with
  | none => .error (1, .invalidStart)
  | some (due, value, low, high) => (readTail low high value due 1 rest).map fun code => (due, code)

/-- Reads bytes of `utf8` from a position on. The second number counts the
bytes still to be passed over. -/
def decodeUtf8From : (position skip : Nat) → Bytes → Except DecodeFault Text
  | _, _, [] => .ok []
  | position, skip + 1, _ :: rest => decodeUtf8From (position + 1) skip rest
  | position, 0, byte :: rest =>
    match readScalar byte rest with
    | .error (count, reason) => .error ⟨utf8.label, byte, position, count, reason.text⟩
    | .ok (due, code) => (decodeUtf8From (position + 1) due rest).map (Char.ofNat code :: ·)

/-- Reads single bytes from a position on. -/
def decodeSingleFrom (encoding : Encoding) : (position : Nat) → Bytes → Except DecodeFault Text
  | _, [] => .ok []
  | position, byte :: rest =>
    match encoding.code? byte.toNat with
    | some code => (decodeSingleFrom encoding (position + 1) rest).map (Char.ofNat code :: ·)
    | none =>
      let reason := if encoding = ascii then DecodeReason.outOfRange else .undefined
      .error ⟨encoding.label, byte, position, 1, reason.text⟩

/-- The byte order mark. -/
def byteOrderMark : Bytes := [0xEF, 0xBB, 0xBF]

/-- Bytes without a byte order mark at their start. -/
def dropMark : Bytes → Bytes
  | 0xEF :: 0xBB :: 0xBF :: rest => rest
  | bytes => bytes

/-- Reads bytes. -/
def decode (encoding : Encoding) (bytes : Bytes) : Except DecodeFault Text :=
  match encoding with
  | utf8 => decodeUtf8From 0 0 bytes
  | markedUtf8 => decodeUtf8From 0 0 (dropMark bytes)
  | encoding => decodeSingleFrom encoding 0 bytes

/-! ## Writing -/

/-- Code points that cannot be written. -/
structure EncodeFault where
  /-- The word for the encoding. -/
  label : Text
  /-- The first of the code points. -/
  code : Nat
  position : Nat
  /-- The number of the code points. -/
  count : Nat
  /-- The words for the reason. -/
  reason : Text
deriving DecidableEq, Repr

/-- The words for the reason why code points cannot be written. -/
def encodeReason : Encoding → Text
  | latin1 => "ordinal not in range(256)"
  | ascii => "ordinal not in range(128)"
  | windows1252 => "character maps to <undefined>"
  | _ => "surrogates not allowed"

/-- Whether a code point can be written. -/
def canWrite (encoding : Encoding) (code : Nat) : Bool :=
  match encoding with
  | utf8 => !Text.isSurrogate code
  | markedUtf8 => !Text.isSurrogate code
  | encoding => (encoding.byte? code).isSome

/-- The bytes of a code point that can be written. -/
def bytesOf (encoding : Encoding) (code : Nat) : Bytes :=
  match encoding with
  | utf8 => String.utf8EncodeChar (Char.ofNat code)
  | markedUtf8 => String.utf8EncodeChar (Char.ofNat code)
  | encoding => ((encoding.byte? code).map UInt8.ofNat).toList

/-- Writes code points. The report of a fault covers the whole run of code
points that cannot be written. -/
def encodeCodes (encoding : Encoding) (codes : List Nat) : Except EncodeFault Bytes :=
  match codes.dropWhile encoding.canWrite with
  | [] =>
    let mark := if encoding = markedUtf8 then byteOrderMark else []
    .ok (mark ++ codes.flatMap encoding.bytesOf)
  | code :: rest =>
    let run := rest.takeWhile (!encoding.canWrite ·)
    .error ⟨encoding.label, code, (codes.takeWhile encoding.canWrite).length, run.length + 1,
      encoding.encodeReason⟩

/-- Writes a text. -/
def encode (encoding : Encoding) (text : Text) : Except EncodeFault Bytes :=
  encoding.encodeCodes (text.map Char.toNat)

/-! ## Messages -/

/-- The words for a number of items at a position. -/
def placeText (position count : Nat) : Text :=
  let first := "in position ".toList ++ Text.ofNat position
  if count = 1 then first else first ++ '-' :: Text.ofNat (position + count - 1)

/-- The message for bytes that cannot be read. -/
def DecodeFault.message (fault : DecodeFault) : Text :=
  let what := if fault.count = 1 then "byte 0x" ++ Text.hex 2 fault.byte.toNat else "bytes".toList
  '\'' :: fault.label ++ "' codec can't decode " ++ what ++ " " ++
    placeText fault.position fault.count ++ ": " ++ fault.reason

/-- The message for code points that cannot be written. -/
def EncodeFault.message (fault : EncodeFault) : Text :=
  let what :=
    if fault.count = 1 then "character '" ++ Text.hexEscape fault.code ++ "'"
    else "characters".toList
  '\'' :: fault.label ++ "' codec can't encode " ++ what ++ " " ++
    placeText fault.position fault.count ++ ": " ++ fault.reason

end Encoding

/-! ## Codecs -/

/-- A way to write texts as bytes and to read them back. -/
structure Codec where
  encode : Text → Except Encoding.EncodeFault Bytes
  decode : Bytes → Except Encoding.DecodeFault Text

/-- The codec of an encoding. -/
def Encoding.codec (encoding : Encoding) : Codec := ⟨encoding.encode, encoding.decode⟩

end Namespacer
