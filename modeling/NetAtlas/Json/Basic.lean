set_option autoImplicit false

/-!
# JSON values

What a JSON document holds. Of a number only its value as a whole number is kept. A string with an
escape that names half a character is well formed as JSON, but no text.
-/
namespace NetAtlas

inductive Json
  | null
  | bool (v : Bool)
  | integer (v : Int)
  /-- A number with a fraction, with an exponent or with too many digits, and negative zero. -/
  | number
  | string (text : Option String)
  | array (items : List Json)
  | object (members : List (Option String × Json))
  deriving Repr

end NetAtlas
