import Plo.Lib.Types

/-!
The formats of `lib_printf`. The text fed is a list of characters, the arguments
are what the caller put on its list; to take an argument of another kind than the
one that is there has no meaning. Nothing sets the flags of a floating-point
conversion, so their branches are left out.
-/
namespace Plo.Lib

/-- The flags a format can set. -/
structure Flags where
  signed : Bool := false
  is64 : Bool := false
  space : Bool := false
  zero : Bool := false
  plus : Bool := false
  hex : Bool := false
  oct : Bool := false
  largeDigits : Bool := false
  alternate : Bool := false
  nullmark : Bool := false
  minus : Bool := false
  fieldWidthStar : Bool := false
  deriving DecidableEq

section SprintfNum

def lowerDigits : List UInt8 :=
  ['0', '1', '2', '3', '4', '5', '6', '7', '8', '9', 'a', 'b', 'c', 'd', 'e', 'f'].map Char.toUInt8

def upperDigits : List UInt8 :=
  ['0', '1', '2', '3', '4', '5', '6', '7', '8', '9', 'A', 'B', 'C', 'D', 'E', 'F'].map Char.toUInt8

def digitChar (largeDigits : Bool) (d : Nat) : UInt8 :=
  (if largeDigits then upperDigits else lowerDigits).getD d 0

variable {w : Nat}

/-- `for (i = 0; i < k; ++i) { *tmp++ = digits[low(num)]; num = next(num); }`: the
characters and what is left of the number. -/
def forDigits (digit : Nat → UInt8) (low next : BitVec w → BitVec w) :
    Nat → BitVec w → List UInt8 × BitVec w
  | 0, num => ([], num)
  | k + 1, num =>
    match forDigits digit low next k (next num) with
    | (cs, num') => (digit (low num).toNat :: cs, num')

/-- `while (num) { *tmp++ = digits[low(num)]; num = next(num); }`. The number gets
shorter by a bit or more in each turn, so its width is enough fuel. -/
def whileDigits (digit : Nat → UInt8) (low next : BitVec w → BitVec w) :
    Nat → BitVec w → List UInt8
  | 0, _ => []
  | k + 1, num =>
    if num = 0 then [] else digit (low num).toNat :: whileDigits digit low next k (next num)

/-- The number in `lib_formatSprintfNum` once its sign is taken off. -/
structure Number where
  num64 : BitVec 64
  num32 : BitVec 32
  num_high : BitVec 32
  sign : UInt8

def takeSign (num64 : BitVec 64) (flags : Flags) : Number :=
  let num32 := num64.setWidth 32
  let num_high := (num64 >>> 32).setWidth 32
  if flags.signed then
    let n : Number :=
      if flags.is64 then
        if num_high.slt 0 then
          let num64 := -num64
          ⟨num64, num64.setWidth 32, (num64 >>> 32).setWidth 32, '-'.toUInt8⟩
        else ⟨num64, num32, num_high, 0⟩
      else if num32.slt 0 then ⟨num64, -num32, num_high, '-'.toUInt8⟩
      else ⟨num64, num32, num_high, 0⟩
    if n.sign = 0 then
      if flags.space then { n with sign := ' '.toUInt8 }
      else if flags.plus then { n with sign := '+'.toUInt8 }
      else n
    else n
  else ⟨num64, num32, num_high, 0⟩

/-- What is written to `tmp_buf`, the lowest digit first. -/
def tmpBuf (n : Number) (flags : Flags) : List UInt8 :=
  let is64 := flags.is64 && n.num_high ≠ 0
  let digit := digitChar flags.largeDigits
  if n.num64 = 0 then ['0'.toUInt8]
  else if flags.hex then
    (if is64 then
      (forDigits digit (· &&& 0x0f) (· >>> 4) 8 n.num32).1 ++
        whileDigits digit (· &&& 0x0f) (· >>> 4) 32 n.num_high
    else whileDigits digit (· &&& 0x0f) (· >>> 4) 32 n.num32) ++
      if flags.alternate then [if flags.largeDigits then 'X'.toUInt8 else 'x'.toUInt8, '0'.toUInt8]
      else []
  else if flags.oct then
    (if is64 then
      match forDigits digit (· &&& 0x07) (· >>> 3) 10 n.num32 with
      | (cs, num32) =>
        -- two bits are left of the low half, the third one comes from the high half
        let num32 := num32 ||| ((n.num_high &&& 0x1) <<< 2)
        cs ++ digit (num32 &&& 0x07).toNat ::
          whileDigits digit (· &&& 0x07) (· >>> 3) 32 (n.num_high >>> 1)
    else whileDigits digit (· &&& 0x07) (· >>> 3) 32 n.num32) ++
      if flags.alternate then ['0'.toUInt8] else []
  else if is64 then whileDigits digit (· % 10) (· / 10) 64 n.num64
  else whileDigits digit (· % 10) (· / 10) 32 n.num32

/-- The text of `lib_formatSprintfNum`. One of the two loops that pad leaves nothing
to the other. -/
def sprintfNum (num64 : BitVec 64) (flags : Flags) (min_number_len : BitVec 32) : List UInt8 :=
  let null := if flags.nullmark ∧ num64 = 0 then ['(', 'n', 'i', 'l', ')'].map Char.toUInt8 else []
  let n := takeSign num64 flags
  let tmp := tmpBuf n flags
  let sign := if n.sign ≠ 0 then [n.sign] else []
  let pad_len := min_number_len - BitVec.ofNat 32 tmp.length - BitVec.ofNat 32 sign.length
  let pad := if pad_len.toInt > 0 then pad_len.toNat else 0
  null ++ List.replicate (if flags.zero then 0 else pad) ' '.toUInt8 ++ sign ++
    List.replicate (if flags.zero then pad else 0) '0'.toUInt8 ++ tmp.reverse

end SprintfNum

section Parse

/-- An argument as the caller promoted it; no string is a null pointer. -/
inductive Arg
  | w32 (v : BitVec 32)
  | w64 (v : BitVec 64)
  | str (s : Option CString)

def takeInt : List Arg → Option (BitVec 32 × List Arg)
  | .w32 v :: args => some (v, args)
  | _ => none

def takeString : List Arg → Option (Option CString × List Arg)
  | .str s :: args => some (s, args)
  | _ => none

def getUnsigned (flags : Flags) : List Arg → Option (BitVec 64 × List Arg)
  | .w32 v :: args => if flags.is64 then none else some (v.setWidth 64, args)
  | .w64 v :: args => if flags.is64 then some (v, args) else none
  | _ => none

def getSigned (flags : Flags) : List Arg → Option (BitVec 64 × List Arg)
  | .w32 v :: args => if flags.is64 then none else some (v.signExtend 64, args)
  | .w64 v :: args => if flags.is64 then some (v, args) else none
  | _ => none

/-- What stands between `%` and the conversion character. -/
structure Spec where
  flags : Flags
  min_number_len : BitVec 32
  /-- An `int`; negative when there is no precision. -/
  float_frac_len : BitVec 32

def flagChars : Flags → List UInt8 → Flags × List UInt8
  | flags, [] => (flags, [])
  | flags, fmt :: format =>
    if fmt = ' '.toUInt8 then flagChars { flags with space := true } format
    else if fmt = '-'.toUInt8 then flagChars { flags with minus := true } format
    else if fmt = '0'.toUInt8 then flagChars { flags with zero := true } format
    else if fmt = '+'.toUInt8 then flagChars { flags with plus := true } format
    else if fmt = '#'.toUInt8 then flagChars { flags with alternate := true } format
    else if fmt = '*'.toUInt8 then flagChars { flags with fieldWidthStar := true } format
    else (flags, fmt :: format)

def decimal : BitVec 32 → List UInt8 → BitVec 32 × List UInt8
  | n, [] => (n, [])
  | n, fmt :: format =>
    if fmt ≥ '0'.toUInt8 ∧ fmt ≤ '9'.toUInt8 then
      decimal (n * 10 + BitVec.ofNat 32 (fmt.toNat - '0'.toUInt8.toNat)) format
    else (n, fmt :: format)

/-- What follows the character, if the format goes on with it. -/
def skip (c : UInt8) : List UInt8 → Option (List UInt8)
  | [] => none
  | fmt :: format => if fmt = c then some format else none

/-- `wide` where `size_t` and pointers have 64 bits. -/
def lengthChars (wide : Bool) (flags : Flags) (format : List UInt8) : Flags × List UInt8 :=
  let (flags, format) :=
    match skip 'l'.toUInt8 format with
    | none => (flags, format)
    | some format =>
      match skip 'l'.toUInt8 format with
      | none => (flags, format)
      | some format => ({ flags with is64 := true }, format)
  match skip 'z'.toUInt8 format with
  | none => (flags, format)
  | some format => ({ flags with is64 := flags.is64 || wide }, format)

/-- Reads up to the conversion character. Where the format ends before, nothing is
left of it. -/
def parseSpec (wide : Bool) (format : List UInt8) (args : List Arg) :
    Option (Spec × List UInt8 × List Arg) :=
  match flagChars {} format with
  | (flags, []) => some (⟨flags, 0, -1⟩, [], args)
  | (flags, format) =>
    let (min_number_len, format) := decimal 0 format
    match if flags.fieldWidthStar then takeInt args else some (min_number_len, args) with
    | none => none
    | some (min_number_len, args) =>
      let (float_frac_len, format) :=
        match skip '.'.toUInt8 format with
        | none => (-1, format)
        | some format => decimal 0 format
      match
        match skip '*'.toUInt8 format with
        | none => some (float_frac_len, format, args)
        | some format => (takeInt args).map fun r => (r.1, format, r.2) with
      | none => none
      | some (float_frac_len, format, args) =>
        match lengthChars wide flags format with
        | (flags, format) => some (⟨flags, min_number_len, float_frac_len⟩, format, args)

/-- `lib_formatMemchr` for the NUL: its index, if it is one of the first `n` characters. -/
def memchrNul (s : CString) (n : Nat) : Option Nat := ((s.bytes ++ [0]).take n).findIdx? (· = 0)

/-- The number of characters of a string that are fed. -/
def stringLen (s : CString) (spec : Spec) : BitVec 32 :=
  let l :=
    if spec.min_number_len > 0 then
      match memchrNul s spec.min_number_len.toNat with
      | some p => BitVec.ofNat 32 p
      | none => spec.min_number_len
    else BitVec.ofNat 32 s.bytes.length
  if spec.float_frac_len.toInt ≥ 0 then if l > spec.float_frac_len then spec.float_frac_len else l
  else l

def sprintfString (s : CString) (spec : Spec) : List UInt8 :=
  let l := stringLen s spec
  let pad := if l < spec.min_number_len then (spec.min_number_len - l).toNat else 0
  List.replicate (if spec.flags.minus then 0 else pad) ' '.toUInt8 ++ s.bytes.take l.toNat ++
    List.replicate (if spec.flags.minus then pad else 0) ' '.toUInt8

def nullString : CString := .ofBuffer (['(', 'n', 'u', 'l', 'l', ')'].map Char.toUInt8)

/-- The text of a conversion, and the arguments left. -/
def convert (wide : Bool) (spec : Spec) (fmt : UInt8) (args : List Arg) :
    Option (List UInt8 × List Arg) :=
  let unsigned (flags : Flags) (min_number_len : BitVec 32) :=
    (getUnsigned flags args).map fun r => (sprintfNum r.1 flags min_number_len, r.2)
  let flags := spec.flags
  if fmt = 's'.toUInt8 then
    (takeString args).map fun r => (sprintfString (r.1.getD nullString) spec, r.2)
  else if fmt = 'c'.toUInt8 then
    (takeInt args).map fun r => ([UInt8.ofBitVec (r.1.setWidth 8)], r.2)
  else if fmt = 'p'.toUInt8 then
    unsigned { flags with hex := true, nullmark := true, zero := true, is64 := flags.is64 || wide }
      (if wide then 16 else 8)
  else if fmt = 'o'.toUInt8 then unsigned { flags with oct := true } spec.min_number_len
  else if fmt = 'X'.toUInt8 then
    unsigned { flags with largeDigits := true, hex := true } spec.min_number_len
  else if fmt = 'x'.toUInt8 then unsigned { flags with hex := true } spec.min_number_len
  else if fmt = 'u'.toUInt8 then unsigned flags spec.min_number_len
  else if fmt = 'd'.toUInt8 ∨ fmt = 'i'.toUInt8 then
    let flags := { flags with signed := true }
    (getSigned flags args).map fun r => (sprintfNum r.1 flags spec.min_number_len, r.2)
  else if fmt = '%'.toUInt8 then some (['%'.toUInt8], args)
  else some (['%'.toUInt8, fmt], args)

/-- The loop of `lib_formatParse`. Each turn takes a character of the format at
least, so its length is enough fuel. -/
def formatLoop (wide : Bool) : Nat → List UInt8 → List Arg → Option (List UInt8)
  | 0, _, _ => none
  | _ + 1, [], _ => some []
  | k + 1, fmt :: format, args =>
    if fmt ≠ '%'.toUInt8 then (formatLoop wide k format args).map (fmt :: ·)
    else if format = [] then some ['%'.toUInt8]
    else
      match parseSpec wide format args with
      | none => none
      | some (_, [], _) => some []
      | some (spec, fmt :: format, args) =>
        match convert wide spec fmt args with
        | none => none
        | some (text, args) => (formatLoop wide k format args).map (text ++ ·)

/-- The text `lib_formatParse` feeds. -/
def formatParse (wide : Bool) (format : CString) (args : List Arg) : Option (List UInt8) :=
  formatLoop wide (format.bytes.length + 1) format.bytes args

end Parse

end Plo.Lib
