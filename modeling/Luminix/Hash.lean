import Luminix.CLib.Buffer
import Luminix.CLib.Hex

/-!
# Hashes and tokens

`security_hash` and `security_validate_token` of `security.c`.  The hash is an `unsigned long`, and
has `w` bits.
-/

namespace Luminix

open CLib

/-- One round of the loop of `security_hash`. -/
def hashRound {w : Nat} (hash : BitVec w) (c : UInt8) : BitVec w :=
  ((hash <<< 5) + hash) + BitVec.ofNat w c.toNat

/-- `security_hash`.  `snprintf` writes `max_len` bytes at most, the terminator among them. -/
def securityHash (w : Nat) (input : Option CString) (output : Option (List UInt8)) (maxLen : Nat) :
    Option (Int × Option (List UInt8)) :=
  match input, output with
  | some input, some output =>
    if maxLen = 0 then some (-1, output)
    else do
      let hash := input.bytes.foldl hashRound (BitVec.ofNat w 5381)
      let output ← writeAt output 0 ((paddedHex 16 hash.toNat).take (maxLen - 1) ++ [0])
      some (0, output)
  | _, _ => some (-1, output)

/-- `security_validate_token`. -/
def securityValidateToken (token : Option CString) : Bool :=
  match token with
  | none => false
  | some token =>
    (ascii "admin_token_").isPrefixOf token.bytes && 12 < token.length &&
      (token.bytes.drop 12).all isXDigit

end Luminix
