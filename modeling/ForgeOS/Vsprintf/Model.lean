import ForgeOS.Lib.Reader
import ForgeOS.Lib.Word

/-!
# Formatted output

A format is the list of the characters from the pointer on, with the terminator: a function that
reads its way along it has the rest of the list afterwards, and a `none` result is an access behind
the end of the list.  Writing to the buffer is adding characters to a list.

The variable arguments are the words from `args 0` on, two for a `long long`, the lower one first;
`int`, `long`, `size_t` and pointers are words.  `strings` has what `strlen` measures at every
address, nothing for a null pointer.  What the directive says is separated from what is then done,
with the arguments taken in the order of the source.  `qualifier2` is not initialized, and keeps its
value from one directive to the next.
-/

namespace ForgeOS.Vsprintf

/-- `(size_t) ~0`: there is no width, or no precision. -/
def unset : ℕ := wordSize - 1

def nul : Char := Char.ofNat 0

/-- The flags of a conversion, as `number` gets them. -/
structure Flags where
  zeropad : Bool := false
  sign : Bool := false
  plus : Bool := false
  space : Bool := false
  left : Bool := false
  special : Bool := false
  small : Bool := false
  deriving DecidableEq

def digits (small : Bool) : List Char :=
  if small then "0123456789abcdefghijklmnopqrstuvwxyz".toList
  else "0123456789ABCDEFGHIJKLMNOPQRSTUVWXYZ".toList

/-- The loop that fills `tmp`, with room for so many more characters; the last one comes first. -/
def fillTmp (small : Bool) (base : ℕ) : ℕ → ℕ → List Char → Option (List Char)
  | 0, num, tmp => if num = 0 then some tmp else none
  | room + 1, num, tmp =>
    if num = 0 then some tmp
    else do
      let c ← (digits small)[num % base]?
      fillTmp small base room (num / base) (c :: tmp)

/-- Is the number negative?  It is cast to `intmax_t` for that. -/
def negative (num : UInt64) (type : Flags) : Bool := type.sign && decide (2 ^ 63 ≤ num.toNat)

def signOf (num : UInt64) (type : Flags) : List Char :=
  if negative num type then ['-']
  else if type.plus then ['+'] else if type.space then [' '] else []

def specialOf (base : ℕ) (type : Flags) : List Char :=
  if type.special then
    if base = 8 then ['0']
    else if base = 16 then '0' :: ((digits type.small)[33]?).toList
    else []
  else []

/-- `size`, when the characters of the sign and of `SPECIAL` have been taken off. -/
def sizeBehind (size base : ℕ) (type : Flags) (sign : List Char) : ℕ :=
  let size := if sign ≠ [] ∧ size > 0 then size - 1 else size
  if type.special then
    if base = 16 ∧ size ≥ 2 then size - 2
    else if base = 8 ∧ size > 0 then size - 1 else size
  else size

def tmpOf (small : Bool) (base : ℕ) (num : UInt64) : Option (List Char) :=
  if num = 0 then some ['0'] else fillTmp small base 36 num.toNat []

def number (num : UInt64) (base size precision : ℕ) (type : Flags) : Option (List Char) :=
  let zeropad := if type.left then false else type.zeropad
  if base < 2 ∨ base > 36 then none
  else
    let c := if zeropad then '0' else ' '
    -- Handle zero sentinels
    let precision := if precision = unset then 0 else precision
    let size := if size = unset then 0 else size
    let sign := signOf num type
    let size := sizeBehind size base type sign
    (tmpOf type.small base (if negative num type then -num else num)).map fun tmp ↦
      let i := tmp.length
      let precision := if i > precision then i else precision
      let size := if size > precision then size - precision else 0
      let (before, size) := if !zeropad && !type.left then (size, 0) else (0, size)
      let (filling, size) := if !type.left then (size, 0) else (0, size)
      List.replicate before ' ' ++ sign ++ specialOf base type ++ List.replicate filling c ++
        List.replicate (precision - i) '0' ++ tmp ++ List.replicate size ' '

/-- A width or a precision, as a directive has it. -/
inductive Amount where
  | none
  | digits (n : ℕ)
  | star
  deriving DecidableEq

/-- A directive.  The precision is there if there is a dot, and `ll` says that `qualifier2` is
assigned. -/
structure Directive where
  flags : Flags
  width : Amount
  precision : Option Amount
  qualifier : Option Char
  ll : Bool
  conv : Char
  deriving DecidableEq

/-- The cases of the `switch` under the label `repeat`. -/
def setFlag (flags : Flags) : Char → Option Flags
  | '-' => some { flags with left := true }
  | '+' => some { flags with plus := true }
  | ' ' => some { flags with space := true }
  | '#' => some { flags with special := true }
  | '0' => some { flags with zeropad := true }
  | _ => none

def readFlags (flags : Flags) : List Char → Option (Flags × List Char) := Reader.scan setFlag flags

def addDigit (i : ℕ) (c : Char) : Option ℕ :=
  if c.isDigit then some ((i * 10 + (c.toNat - '0'.toNat)) % wordSize) else none

def skipAtoi (i : ℕ) : List Char → Option (ℕ × List Char) := Reader.scan addDigit i

/-- A width, or a precision after its dot.  The pointer stays on a star. -/
def readAmount : List Char → Option (Amount × List Char)
  | [] => none
  | c :: fmt =>
    if c.isDigit then (skipAtoi 0 (c :: fmt)).map fun r ↦ (.digits r.1, r.2)
    else if c = '*' then some (.star, c :: fmt)
    else some (.none, c :: fmt)

def readPrecision : List Char → Option (Option Amount × List Char)
  | [] => none
  | c :: fmt =>
    if c = '.' then (readAmount fmt).map fun r ↦ (some r.1, r.2) else some (none, c :: fmt)

def readQualifier : List Char → Option (Option Char × List Char)
  | [] => none
  | c :: fmt =>
    if c = 'h' ∨ c = 'l' ∨ c = 'L' then some (some c, fmt) else some (none, c :: fmt)

def readLl (qualifier : Option Char) : List Char → Option (Bool × List Char)
  | [] => none
  | c :: fmt =>
    if c = 'l' ∧ qualifier = some 'l' then some (true, fmt) else some (false, c :: fmt)

/-- The character of the conversion.  At the terminator the pointer is set back, and the loop
advances it to the terminator again. -/
def readConv : List Char → Option (Char × List Char)
  | [] => none
  | c :: fmt => some (c, if c = nul then c :: fmt else fmt)

/-- The rest of a directive is read, from behind its width. -/
def readRest (flags : Flags) (width : Amount) (fmt : List Char) :
    Option (Directive × List Char) := do
  let (precision, fmt) ← readPrecision fmt
  let (qualifier, fmt) ← readQualifier fmt
  let (ll, fmt) ← readLl qualifier fmt
  let (conv, fmt) ← readConv fmt
  some (⟨flags, width, precision, qualifier, ll, conv⟩, fmt)

def parse (fmt : List Char) : Option (Directive × List Char) := do
  let (flags, fmt) ← readFlags {} fmt
  let (width, fmt) ← readAmount fmt
  readRest flags width fmt

/-- `while (--field_width > 0) *str++ = ' ';`, which leaves 0 in `field_width`. -/
def padPre (fieldWidth : ℕ) : List Char := List.replicate (wordDec fieldWidth) ' '

/-- `while (len < field_width--) *str++ = ' ';`, with what it leaves in `field_width`. -/
def padPost (len : ℕ) : ℕ → List Char × ℕ
  | 0 => ([], wordDec 0)
  | fieldWidth + 1 =>
    if len < fieldWidth + 1 then
      (' ' :: (padPost len fieldWidth).1, (padPost len fieldWidth).2)
    else ([], fieldWidth)

def convChar (flags : Flags) (fieldWidth : ℕ) (c : Char) : List Char :=
  let padded := flags.left = false ∧ fieldWidth ≠ unset
  let before := if padded then padPre fieldWidth else []
  let fieldWidth := if padded then 0 else fieldWidth
  before ++ [c] ++ if fieldWidth ≠ unset then padPre fieldWidth else []

def convString (flags : Flags) (fieldWidth precision : ℕ) (s : List Char) : List Char :=
  let len := if precision ≠ unset ∧ s.length > precision then precision else s.length
  let (before, fieldWidth) :=
    if flags.left = false ∧ fieldWidth ≠ unset then padPost len fieldWidth else ([], fieldWidth)
  before ++ s.take len ++
    if fieldWidth ≠ 0 ∧ fieldWidth ≠ unset then (padPost len fieldWidth).1 else []

/-- The argument of an integer conversion, and the number of its words. -/
def integer (args : ℕ → UInt32) (qualifier : Option Char) (qualifier2 : Char) : UInt64 × ℕ :=
  if qualifier = some 'l' ∧ qualifier2 = 'l' then
    (UInt64.ofNat ((args 0).toNat + 2 ^ 32 * (args 1).toNat), 2)
  else ((args 0).toUInt64, 1)

structure Output where
  text : List Char
  words : ℕ
  /-- The integers stored for `n`, with their addresses. -/
  stores : List (UInt32 × ℕ)
  deriving DecidableEq

def convInteger (args : ℕ → UInt32) (flags : Flags) (fieldWidth precision : ℕ)
    (qualifier : Option Char) (qualifier2 : Char) (base : ℕ) : Option Output :=
  let x := integer args qualifier qualifier2
  (number x.1 base fieldWidth precision flags).map fun text ↦ ⟨text, x.2, []⟩

def convPointer (args : ℕ → UInt32) (flags : Flags) (fieldWidth precision : ℕ) : Option Output :=
  let flags := if fieldWidth = unset then { flags with zeropad := true } else flags
  let fieldWidth := if fieldWidth = unset then 8 else fieldWidth
  (number (args 0).toUInt64 16 fieldWidth precision flags).map fun text ↦ ⟨text, 1, []⟩

/-- The `switch` over the conversion, when `pos` characters have been written before. -/
def convert (strings : UInt32 → List Char) (args : ℕ → UInt32) (pos : ℕ) (flags : Flags)
    (fieldWidth precision : ℕ) (qualifier : Option Char) (qualifier2 : Char) : Char → Option Output
  | 'c' => some ⟨convChar flags fieldWidth (Char.ofNat ((args 0).toNat % 256)), 1, []⟩
  | 's' => some ⟨convString flags fieldWidth precision (strings (args 0)), 1, []⟩
  | 'o' => convInteger args flags fieldWidth precision qualifier qualifier2 8
  | 'p' => convPointer args flags fieldWidth precision
  | 'x' =>
    convInteger args { flags with small := true } fieldWidth precision qualifier qualifier2 16
  | 'X' => convInteger args flags fieldWidth precision qualifier qualifier2 16
  | 'd' | 'i' =>
    convInteger args { flags with sign := true } fieldWidth precision qualifier qualifier2 10
  | 'u' => convInteger args flags fieldWidth precision qualifier qualifier2 10
  | 'n' => some ⟨[], 1, [(args 0, pos)]⟩
  | c => some ⟨(if c ≠ '%' then ['%'] else []) ++ (if c ≠ nul then [c] else []), 0, []⟩

/-- `field_width`, with what becomes of the flags. -/
def widthOf (args : ℕ → UInt32) (flags : Flags) : Amount → ℕ × Flags
  | .none => (unset, flags)
  | .digits n => (n, flags)
  | .star =>
    if 2 ^ 31 ≤ (args 0).toNat then (wordSize - (args 0).toNat, { flags with left := true })
    else ((args 0).toNat, flags)

def precisionOf (args : ℕ → UInt32) : Option Amount → ℕ
  | none => unset
  | some a =>
    let precision := match a with | .none => unset | .digits n => n | .star => (args 0).toNat
    if 2 ^ 31 ≤ precision then 0 else precision

def Amount.words (a : Amount) : ℕ := if a = .star then 1 else 0

structure State extends Output where
  qualifier2 : Char
  deriving DecidableEq

def directive (strings : UInt32 → List Char) (args : ℕ → UInt32) (s : State) (d : Directive) :
    Option State :=
  let args i := args (s.words + i)
  let w := widthOf args d.flags d.width
  let n := d.width.words
  let precision := precisionOf (fun i ↦ args (n + i)) d.precision
  let n := n + (d.precision.getD .none).words
  let qualifier2 := if d.ll then 'l' else s.qualifier2
  (convert strings (fun i ↦ args (n + i)) s.text.length w.2 w.1 precision d.qualifier qualifier2
    d.conv).map fun o ↦
      ⟨⟨s.text ++ o.text, s.words + (n + o.words), s.stores ++ o.stores⟩, qualifier2⟩

/-- The loop of `vsprintf`, with where it ends in the format. -/
def loop (strings : UInt32 → List Char) (args : ℕ → UInt32) :
    ℕ → List Char → State → Option (List Char × State)
  | 0, _, _ => none
  | fuel + 1, fmt, s => do
    let c ← fmt.head?
    if c = nul then some (fmt, s)
    else if c ≠ '%' then loop strings args fuel fmt.tail { s with text := s.text ++ [c] }
    else do
      let (d, fmt) ← parse fmt.tail
      let s ← directive strings args s d
      loop strings args fuel fmt s

/-- `vsprintf`, when `qualifier2` happens to be this character. -/
def vsprintf (strings : UInt32 → List Char) (args : ℕ → UInt32) (qualifier2 : Char)
    (fmt : List Char) : Option (List Char × State) :=
  loop strings args fmt.length fmt ⟨⟨[], 0, []⟩, qualifier2⟩

end ForgeOS.Vsprintf
