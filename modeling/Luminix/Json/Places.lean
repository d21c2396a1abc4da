import Luminix.Json.Text
import Luminix.Json.Token

/-!
# The places of the tokens in a JSON text

A reader that takes the tokens of a JSON text one after another has to know what may come next, and
which brackets are open.  `placesAfter` follows the tokens with that in mind and stops at the first
one that has no place; `Spelled` says that the tokens are spelled as in RFC 8259, with its white
space before each.  This is a specification, like `JsonText`: no function of the source is
translated here.
-/

namespace Luminix

open CLib

/-! ### Places -/

/-- What an open bracket has opened. -/
inductive Bracket
  | object | array
  deriving DecidableEq

/-- What may come next: a value, a value or the end of the array, a key or the end of the object, a
key, a colon, or what follows a value. -/
inductive Place
  | value | firstValue | firstKey | key | colon | next
  deriving DecidableEq

/-- After the first token of a value. -/
def placeAfterValue (brackets : List Bracket) : JsonToken → Option (Place × List Bracket)
  | .objectStart => some (.firstKey, .object :: brackets)
  | .arrayStart => some (.firstValue, .array :: brackets)
  | .string _ | .number _ | .boolean _ | .null => some (.next, brackets)
  | _ => none

/-- After a token, if it has a place: what may come next, and the brackets that are open, the
innermost first. -/
def placeAfter : Place × List Bracket → JsonToken → Option (Place × List Bracket)
  | (.value, brackets), t => placeAfterValue brackets t
  | (.firstValue, .array :: brackets), .arrayEnd => some (.next, brackets)
  | (.firstValue, brackets), t => placeAfterValue brackets t
  | (.firstKey, .object :: brackets), .objectEnd => some (.next, brackets)
  | (.firstKey, .object :: brackets), .string _ => some (.colon, .object :: brackets)
  | (.key, .object :: brackets), .string _ => some (.colon, .object :: brackets)
  | (.colon, .object :: brackets), .colon => some (.value, .object :: brackets)
  | (.next, .object :: brackets), .comma => some (.key, .object :: brackets)
  | (.next, .object :: brackets), .objectEnd => some (.next, brackets)
  | (.next, .array :: brackets), .comma => some (.value, .array :: brackets)
  | (.next, .array :: brackets), .arrayEnd => some (.next, brackets)
  | _, _ => none

/-- After some tokens, if each has a place. -/
def placesAfter : Place × List Bracket → List JsonToken → Option (Place × List Bracket)
  | s, [] => some s
  | s, t :: ts => (placeAfter s t).bind fun s => placesAfter s ts

/-- Each token has a place in a JSON text that begins with them. -/
def InPlace (ts : List JsonToken) : Prop := (placesAfter (.value, []) ts).isSome = true

instance (ts : List JsonToken) : Decidable (InPlace ts) := inferInstanceAs (Decidable (_ = true))

/-! ### Spelling -/

/-- How JSON spells a token. -/
inductive JsonLexeme : JsonToken → List UInt8 → Prop
  | objectStart : JsonLexeme .objectStart [123]
  | objectEnd : JsonLexeme .objectEnd [125]
  | arrayStart : JsonLexeme .arrayStart [91]
  | arrayEnd : JsonLexeme .arrayEnd [93]
  | colon : JsonLexeme .colon [58]
  | comma : JsonLexeme .comma [44]
  | string {l : List UInt8} (h : JsonChars l) :
      JsonLexeme (.string (CString.ofBytes l)) (34 :: (l ++ [34]))
  | number {l : List UInt8} (h : JsonNumber l) : JsonLexeme (.number (CString.ofBytes l)) l
  | false : JsonLexeme (.boolean false) (ascii "false")
  | true : JsonLexeme (.boolean true) (ascii "true")
  | null : JsonLexeme .null (ascii "null")

/-- From `l` on the tokens are spelled as in JSON, and `l'` is left. -/
inductive Spelled : List JsonToken → List UInt8 → List UInt8 → Prop
  | nil {l : List UInt8} : Spelled [] l l
  | cons {t : JsonToken} {ts : List JsonToken} {a w l l' : List UInt8} (ha : IsJsonBlank a)
      (hw : JsonLexeme t w) (h : Spelled ts l l') : Spelled (t :: ts) (a ++ (w ++ l)) l'

/-! ### What is left of a text -/

/-- The text completes a JSON text of which some tokens have been taken. -/
inductive Completes : Place × List Bracket → List UInt8 → Prop
  | done {l : List UInt8} (h : IsJsonBlank l) : Completes (.next, []) l
  | value {brackets : List Bracket} {a v l : List UInt8} (ha : IsJsonBlank a) (hv : JsonValue v)
      (h : Completes (.next, brackets) l) : Completes (.value, brackets) (a ++ (v ++ l))
  | firstValue {brackets : List Bracket} {l : List UInt8} (h : Completes (.value, brackets) l) :
      Completes (.firstValue, brackets) l
  | emptyArray {brackets : List Bracket} {a l : List UInt8} (ha : IsJsonBlank a)
      (h : Completes (.next, brackets) l) :
      Completes (.firstValue, .array :: brackets) (a ++ 93 :: l)
  | members {brackets : List Bracket} {m l : List UInt8} (hm : JsonMembers m)
      (h : Completes (.next, brackets) l) : Completes (.key, .object :: brackets) (m ++ 125 :: l)
  | firstKey {brackets : List Bracket} {l : List UInt8} (h : Completes (.key, brackets) l) :
      Completes (.firstKey, brackets) l
  | emptyObject {brackets : List Bracket} {a l : List UInt8} (ha : IsJsonBlank a)
      (h : Completes (.next, brackets) l) :
      Completes (.firstKey, .object :: brackets) (a ++ 125 :: l)
  | colon {brackets : List Bracket} {b c v l : List UInt8} (hb : IsJsonBlank b)
      (hc : IsJsonBlank c) (hv : JsonValue v) (h : Completes (.next, .object :: brackets) l) :
      Completes (.colon, .object :: brackets) (b ++ 58 :: (c ++ (v ++ l)))
  | objectEnd {brackets : List Bracket} {a l : List UInt8} (ha : IsJsonBlank a)
      (h : Completes (.next, brackets) l) :
      Completes (.next, .object :: brackets) (a ++ 125 :: l)
  | moreMembers {brackets : List Bracket} {a m l : List UInt8} (ha : IsJsonBlank a)
      (hm : JsonMembers m) (h : Completes (.next, brackets) l) :
      Completes (.next, .object :: brackets) (a ++ 44 :: (m ++ 125 :: l))
  | arrayEnd {brackets : List Bracket} {a l : List UInt8} (ha : IsJsonBlank a)
      (h : Completes (.next, brackets) l) :
      Completes (.next, .array :: brackets) (a ++ 93 :: l)
  | moreElements {brackets : List Bracket} {a e l : List UInt8} (ha : IsJsonBlank a)
      (he : JsonElements e) (h : Completes (.next, brackets) l) :
      Completes (.next, .array :: brackets) (a ++ 44 :: (e ++ 93 :: l))

end Luminix
