import Abnf.Diagnostic.Kind
import Abnf.Grammar.Node
import Abnf.Text.Number
import Abnf.Text.Utf8

/-! Numeric values: `%x41` is one code point, `%x41-5A` a range of them, and `%x41.42` one after the
    other. The letter after the sign names the base. -/

namespace Abnf.NumVal

open Diagnostic (Kind)

/-- The base that a letter names. --/
def base? : Char → Option Nat
  | 'b' | 'B' => some 2
  | 'd' | 'D' => some 10
  | 'x' | 'X' => some 16
  | _ => none

/-- One value, which no code point may be exceeded by. --/
def codePoint (base : Nat) (digits : List Char) : Except Kind UInt32 :=
  match Digits.number? base digits with
  | none => .error .invalidNumber
  | some n => if n ≤ maxCodePoint.toNat then .ok (UInt32.ofNat n) else .error .codePointTooLarge

/-- Two values with a dash between. --/
def range (base : Nat) (lo hi : List Char) : Except Kind Node := do
  let lo ← codePoint base lo
  let hi ← codePoint base hi
  if lo ≤ hi then .ok (.charRange lo hi) else .error .invalidRange

/-- The character of a code point, which a surrogate has not. --/
def char (value : UInt32) : Except Kind Char :=
  if h : value.isValidChar then .ok ⟨value, h⟩ else .error .invalidNumber

/-- Values with dots between. They stand for bytes if each fits in one, else for characters in UTF-8. --/
def dotted (values : List UInt32) : Except Kind Node :=
  if values.all (· < byteLimit) then .ok (.literal (values.map UInt32.toUInt8) false)
  else do
    let chars ← values.mapM char
    .ok (.literal (chars.flatMap String.utf8EncodeChar) false)

/-- The node that a numeric value stands for. --/
def node (text : String) : Except Kind Node :=
  match text.toList with
  | _ :: mark :: body =>
    match base? mark with
    | none => .error .invalidNumber
    | some base =>
      if body.contains '-' then
        match Digits.split '-' body with
        | [lo, hi] => if body.contains '.' then .error .invalidNumber else range base lo hi
        | _ => .error .invalidNumber
      else if body.contains '.' then do
        let values ← (Digits.split '.' body).mapM (codePoint base)
        dotted values
      else do
        let value ← codePoint base body
        .ok (.char value)
  | _ => .error .invalidNumber

end Abnf.NumVal
