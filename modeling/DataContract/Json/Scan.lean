import DataContract.Json.Source
import DataContract.Text.Numeral

/-!
# Scanning the scalars of a JSON text

Words, numbers and string literals at the front of a text.

A number without point and exponent that fits 64 bits is an integer, signed when it is negative
and unsigned otherwise.  Every other number is a double: of its digits only those enter the
significand that keep it within 64 bits, and significand, power of ten and result are each
rounded.

Specification (`SPEC_FULL.md`, part II): section 10.4, the JSON that is read.

Contents:

* `Scan`: what is found at the front of a text, with the rest of the text.
* `scanWord`, `scanNumber`, `scanLiteral`: the scalars.

Results:

* `scanWord_length`, `scanNumber_length`, `scanLiteral_length`: what a scan leaves is no longer
  than the text.
-/

namespace DataContract.Json

/-- What stands at the front of a text. -/
inductive Scan (α : Type) where
  | found (value : α) (rest : List Char)
  | broken (fault : Fault)

/-- The text that a scan leaves is at most this long. -/
def Scan.Within {α : Type} (bound : Nat) : Scan α → Prop
  | .found _ rest => rest.length ≤ bound
  | .broken _ => True

theorem Scan.Within.mono {α : Type} {scan : Scan α} {a b : Nat} (h : scan.Within a)
    (hab : a ≤ b) : scan.Within b := by
  cases scan with
  | found => exact Nat.le_trans h hab
  | broken => trivial

theorem Scan.Within.length_le {α : Type} {scan : Scan α} {bound : Nat} {value : α}
    {rest : List Char} (h : scan.Within bound) (found : scan = .found value rest) :
    rest.length ≤ bound := by
  subst found
  exact h

/-! ## Words -/

/-- Finds the letters of a word. -/
def scanWord {α : Type} (value : α) : List Char → List Char → Scan α
  | [], text => .found value text
  | _ :: _, [] => .broken ⟨.truncated, .truncated, true⟩
  | letter :: letters, c :: text =>
    if c = letter then scanWord value letters text else .broken (.plain .malformed)

theorem scanWord_length {α : Type} (value : α) (letters text : List Char) :
    (scanWord value letters text).Within text.length := by
  induction letters generalizing text with
  | nil => exact Nat.le_refl _
  | cons letter letters ih =>
    cases text with
    | nil => trivial
    | cons c text =>
      rw [scanWord]
      split
      · exact (ih text).mono (by simp)
      · trivial

/-! ## Numbers -/

/-- The digits at the front of a text, with the rest. -/
def digits (text : List Char) : List Char × List Char :=
  (text.takeWhile Char.isDigit, text.dropWhile Char.isDigit)

theorem digits_length (text : List Char) : (digits text).2.length ≤ text.length :=
  (List.dropWhile_sublist _).length_le

/-- The value of a digit. -/
def digitValue (c : Char) : Nat := c.toNat - '0'.toNat

/-- The number that decimal digits write. -/
def decimal (digits : List Char) : Nat := Text.valueIn 10 digits

/-- The greatest unsigned number of 64 bits. -/
def maxWord : Nat := 0xFFFFFFFFFFFFFFFF

/-- The decimal significand of a number and the power of ten that goes with it. -/
structure Significand where
  value : Nat
  power : Int

/-- Adds the digits before the point.  From the first one on that does not fit they only raise
the power of ten. -/
def Significand.addWhole (s : Significand) : List Char → Significand
  | [] => s
  | c :: rest =>
    if 10 * s.value + digitValue c ≤ maxWord then
      Significand.addWhole { s with value := 10 * s.value + digitValue c } rest
    else { s with power := s.power + (rest.length + 1) }

/-- Adds the digits behind the point, up to the first one that does not fit. -/
def Significand.addFraction (s : Significand) : List Char → Significand
  | [] => s
  | c :: rest =>
    if 10 * s.value + digitValue c ≤ maxWord then
      Significand.addFraction ⟨10 * s.value + digitValue c, s.power - 1⟩ rest
    else s

/-- The greatest exponent that is computed with.  A greater one makes any number but zero too
large, or too small to differ from zero. -/
def maxExponent : Nat := 0x7FFFFFFF

/-- The double with a significand and an exponent. -/
def Significand.toDouble? (s : Significand) (negative : Bool) (exponent : Int) :
    Option Double :=
  if exponent.natAbs ≤ maxExponent then Double.scaled? negative s.value (s.power + exponent)
  else if 0 < exponent ∧ s.value ≠ 0 then none
  else some (Double.zero negative)

/-- The number with these digits before and behind the point and this exponent, where present. -/
def numberOf (negative : Bool) (whole : List Char) (fraction : Option (List Char))
    (exponent : Option Int) : Option Number :=
  if fraction.isNone ∧ exponent.isNone ∧ ¬ negative ∧ decimal whole ≤ maxWord then
    some (.int (decimal whole))
  else if fraction.isNone ∧ exponent.isNone ∧ negative ∧ 0 < decimal whole ∧
      decimal whole ≤ 0x8000000000000000 then
    some (.int (-(decimal whole)))
  else
    let s := (Significand.addWhole ⟨0, 0⟩ whole).addFraction (fraction.getD [])
    (s.toDouble? negative (exponent.getD 0)).map .double

/-- The fault of a number that lacks a digit where the text goes on with `rest`. -/
def missingDigit (rest : List Char) : Fault :=
  if rest.isEmpty then ⟨.truncated, .malformed, true⟩ else .plain .malformed

/-- Finds the exponent of a number, if there is one. -/
def scanExponent (text : List Char) : Scan (Option Int) :=
  match text with
  | 'e' :: rest | 'E' :: rest =>
    let (negative, rest) :=
      match rest with
      | '-' :: rest => (true, rest)
      | '+' :: rest => (false, rest)
      | _ => (false, rest)
    let (power, after) := digits rest
    if power.isEmpty then .broken (missingDigit rest)
    else .found (some (if negative then -(decimal power : Int) else decimal power)) after
  | _ => .found none text

theorem scanExponent_length (text : List Char) :
    (scanExponent text).Within text.length := by
  have key : ∀ rest after : List Char, after.length ≤ rest.length →
      (digits after).2.length ≤ (rest.length + 1) := fun rest after h =>
    Nat.le_succ_of_le (Nat.le_trans (digits_length after) h)
  unfold scanExponent
  split
  · rename_i rest
    dsimp only
    split <;> split <;> first | trivial | (apply key; simp)
  · rename_i rest
    dsimp only
    split <;> split <;> first | trivial | (apply key; simp)
  · exact Nat.le_refl _

/-- Finds the digits behind the point of a number, if there is one. -/
def scanFraction (text : List Char) : Scan (Option (List Char)) :=
  match text with
  | '.' :: rest =>
    let (fraction, after) := digits rest
    if fraction.isEmpty then .broken (missingDigit rest) else .found (some fraction) after
  | _ => .found none text

theorem scanFraction_length (text : List Char) :
    (scanFraction text).Within text.length := by
  unfold scanFraction
  split
  · rename_i rest
    dsimp only
    split
    · trivial
    · exact Nat.le_succ_of_le (digits_length rest)
  · exact Nat.le_refl _

/-- Finds a number behind its sign. -/
def scanNumber (negative : Bool) (text : List Char) : Scan (Option Number) :=
  let (whole, afterWhole) := digits text
  if whole.isEmpty then .broken (missingDigit text)
  else if whole.head? = some '0' ∧ 1 < whole.length then .broken (.plain .malformed)
  else
    match scanFraction afterWhole with
    | .broken fault => .broken fault
    | .found fraction afterFraction =>
      match scanExponent afterFraction with
      | .broken fault => .broken fault
      | .found exponent rest => .found (numberOf negative whole fraction exponent) rest

theorem scanNumber_length (negative : Bool) (text : List Char) :
    (scanNumber negative text).Within text.length := by
  unfold scanNumber
  have hw := digits_length text
  dsimp only
  split
  · trivial
  split
  · trivial
  have hf := scanFraction_length (digits text).2
  split
  · trivial
  · rename_i fraction afterFraction h
    rw [h] at hf
    have he := scanExponent_length afterFraction
    split
    · trivial
    · rename_i exponent rest h
      rw [h] at he
      exact Nat.le_trans he (Nat.le_trans hf hw)

/-- A number of at least one digit leaves less than the text. -/
theorem scanNumber_length_lt {negative : Bool} {c : Char} {text rest : List Char}
    {value : Option Number} (hc : c.isDigit)
    (h : scanNumber negative (c :: text) = .found value rest) : rest.length < text.length + 1 := by
  unfold scanNumber at h
  dsimp only at h
  have hd : (digits (c :: text)).2.length ≤ text.length := by
    simpa [digits, List.dropWhile_cons, hc] using digits_length text
  split at h
  · simp at h
  split at h
  · simp at h
  have hf := scanFraction_length (digits (c :: text)).2
  split at h
  · simp at h
  · rename_i fraction afterFraction hsf
    rw [hsf] at hf
    have he := scanExponent_length afterFraction
    split at h
    · simp at h
    · rename_i exponent after hse
      rw [hse] at he
      injection h with _ h
      subst h
      exact Nat.lt_succ_of_le (Nat.le_trans he (Nat.le_trans hf hd))

/-! ## String literals -/

open Text (hexValue?)

/-- The value of four hexadecimal digits. -/
def hexWord? (a b c d : Char) : Option Nat := do
  return (((← hexValue? a) * 16 + (← hexValue? b)) * 16 + (← hexValue? c)) * 16 + (← hexValue? d)

/-- The character that a backslash makes of a letter. -/
def unescape? : Char → Option Char
  | '"' => some '"'
  | '\\' => some '\\'
  | '/' => some '/'
  | 'b' => some '\x08'
  | 'f' => some '\x0c'
  | 'n' => some '\n'
  | 'r' => some '\r'
  | 't' => some '\t'
  | _ => none

/-- The first of two surrogates. -/
def isHighSurrogate (n : Nat) : Bool := 0xD800 ≤ n && n ≤ 0xDBFF

/-- The second of two surrogates. -/
def isLowSurrogate (n : Nat) : Bool := 0xDC00 ≤ n && n ≤ 0xDFFF

/-- The characters of code points among which surrogates may stand, up to the first surrogate that
has no partner, and whether there is none such. -/
def joinSurrogates : List Nat → List Char × Bool
  | [] => ([], true)
  | high :: low :: rest =>
    if isHighSurrogate high then
      if isLowSurrogate low then
        let (joined, paired) := joinSurrogates rest
        (Char.ofNat ((high - 0xD800) * 0x400 + (low - 0xDC00) + 0x10000) :: joined, paired)
      else ([], false)
    else if isLowSurrogate high then ([], false)
    else
      let (joined, paired) := joinSurrogates (low :: rest)
      (Char.ofNat high :: joined, paired)
  | [last] =>
    if isHighSurrogate last || isLowSurrogate last then ([], false)
    else ([Char.ofNat last], true)

/-- The literal with these code points. -/
def literalOf (points : List Nat) : Literal :=
  let (chars, paired) := joinSurrogates points
  ⟨String.ofList chars, paired⟩

/-- The fault of a literal that goes wrong behind code points, the last one first.  A surrogate
without partner is met before the flaw, unless it is the last code point and its partner could
still have followed. -/
def literalFault (points : List Nat) (flaw : Flaw) : Fault :=
  let settled :=
    match points with
    | last :: before => if isHighSurrogate last then before else points
    | [] => []
  ⟨if (joinSurrogates settled.reverse).2 then flaw else .malformed, flaw, false⟩

/-- Finds the rest of a literal behind code points, the last one first. -/
def scanLiteralFrom (points : List Nat) : List Char → Scan Literal
  | [] => .broken (literalFault points .truncated)
  | '"' :: rest => .found (literalOf points.reverse) rest
  | '\\' :: [] => .broken (literalFault points .truncated)
  | '\\' :: 'u' :: a :: b :: c :: d :: rest =>
    match hexWord? a b c d with
    | some point => scanLiteralFrom (point :: points) rest
    | none => .broken (literalFault points .malformed)
  | '\\' :: 'u' :: short =>
    -- Four bytes make the digits of an escape, whatever they are.
    .broken (literalFault points
      (if (String.ofList short).utf8ByteSize < 4 then .truncated else .malformed))
  | '\\' :: letter :: rest =>
    match unescape? letter with
    | some c => scanLiteralFrom (c.toNat :: points) rest
    | none => .broken (literalFault points .malformed)
  | c :: rest =>
    if c.toNat < 0x20 then .broken (literalFault points .malformed)
    else scanLiteralFrom (c.toNat :: points) rest

/-- Finds a string literal behind its opening quote. -/
def scanLiteral (text : List Char) : Scan Literal := scanLiteralFrom [] text

theorem scanLiteralFrom_length (points : List Nat) (text : List Char) :
    (scanLiteralFrom points text).Within text.length := by
  fun_induction scanLiteralFrom points text <;>
    first
    | trivial
    | (rename_i ih; exact ih.mono (by simp only [List.length_cons]; omega))
    | (simp only [Scan.Within, List.length_cons]; omega)

theorem scanLiteral_length (text : List Char) : (scanLiteral text).Within text.length :=
  scanLiteralFrom_length [] text

end DataContract.Json
