import Luminix.CLib.Buffer
import Luminix.CLib.Hex

/-!
# Encryption

`security_encrypt` and `security_decrypt` of `security.c`.  The buffer `output` is the list of its
bytes; the functions return a code and what is in it then, and nothing where they write outside.
-/

namespace Luminix

open CLib

/-- `key`, in both functions. -/
def cipherKey : UInt8 := 0x5A

/-- The loop of `security_encrypt`, from index `i` on.  `sprintf` writes a terminator, too. -/
def encryptLoop (output : List UInt8) : (i : Nat) → (input : List UInt8) → Option (List UInt8)
  | _, [] => some output
  | i, c :: input => do
    let encrypted := c ^^^ cipherKey
    let output ← writeAt output (i * 2) (hexByte encrypted ++ [0])
    encryptLoop output (i + 1) input

/-- `security_encrypt`. -/
def securityEncrypt (input : Option CString) (output : Option (List UInt8)) (maxLen : Nat) :
    Option (Int × Option (List UInt8)) :=
  match input, output with
  | some input, some output =>
    if maxLen = 0 then some (-1, output)
    else if maxLen ≤ input.length * 2 then some (-1, output)
    else do
      let output ← encryptLoop output 0 input.bytes
      let output ← writeAt output (input.length * 2) [0]
      some (0, output)
  | _, _ => some (-1, output)

/-- The loop of `security_decrypt`, from index `i` on, over two characters at a time; the code is not
zero where it returns. -/
def decryptLoop (output : List UInt8) : (i : Nat) → (input : List UInt8) → Option (Int × List UInt8)
  | i, a :: b :: input =>
    match scanHex 2 [a, b] with
    | none => some (-1, output)
    | some val => do
      let output ← writeAt output (i / 2) [UInt8.ofNat (val ^^^ cipherKey.toNat)]
      decryptLoop output (i + 2) input
  | _, _ => some (0, output)

/-- `security_decrypt`. -/
def securityDecrypt (input : Option CString) (output : Option (List UInt8)) (maxLen : Nat) :
    Option (Int × Option (List UInt8)) :=
  match input, output with
  | some input, some output =>
    if maxLen = 0 then some (-1, output)
    else if input.length % 2 ≠ 0 ∨ maxLen ≤ input.length / 2 then some (-1, output)
    else do
      let (code, output) ← decryptLoop output 0 input.bytes
      if code = 0 then
        let output ← writeAt output (input.length / 2) [0]
        some (0, output)
      else some (code, output)
  | _, _ => some (-1, output)

end Luminix
