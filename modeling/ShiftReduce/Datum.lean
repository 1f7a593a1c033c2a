import ShiftReduce.Text.Quoted

/-!
The values in which a grammar may be written down, and their text.

`Datum.same` decides whether two values are the same key of a mapping: numbers are compared by
value whatever their kind, the truth values counting as 0 and 1, objects by their identity, and the
other kinds member by member.

Not every value has a text. Whole numbers must not have more digits than a limit, values that hold
values must not be nested deeper than there is room for, and an object may refuse to tell its text.
Likewise a sequence may refuse to tell its length or break off before its end.
-/

namespace ShiftReduce

/-- What is thrown instead of an answer by a value that is asked for its text, its length or its
members. -/
inductive Raised where
  | tooManyDigits (limit : Nat)
  | nestedTooDeep
  /-- What an object throws of its own. -/
  | own (kind message : String)
  deriving DecidableEq

/-- How many digits a whole number may have and how many values may be nested in one another where a
text is made. -/
structure Limits where
  digits : Nat
  depth : Nat

/-- An object that is known by its identity, its kind and its text. -/
structure Object where
  id : Nat
  kind : String
  text : Except Raised String

inductive Datum where
  | null
  | bool (b : Bool)
  | int (n : Int)
  /-- The number `mantissa * 10 ^ (-places)`. -/
  | decimal (mantissa : Int) (places : Nat)
  | text (s : String)
  | bytes (bs : List UInt8)
  | list (members : List Datum)
  | tuple (members : List Datum)
  | set (members : List Datum)
  | mapping (entries : List (Datum × Datum))
  /-- A sequence of another kind. It may throw when it is asked for its length, and behind some of
  its members. -/
  | sequence (o : Object) (unmeasured : Option Raised) (members : List Datum)
    (stop : Option Raised)
  /-- A value of another kind that is neither a sequence nor a mapping. -/
  | object (o : Object)

/-- What a sequence gives when it is gone through: its members, and what it throws if there are more
that it does not give. -/
structure Members where
  members : List Datum
  stop : Option Raised

namespace Datum

instance : Inhabited Datum := ⟨null⟩

/-- The name of a value's kind. -/
def kind : Datum → String
  | null => "NoneType"
  | bool _ => "bool"
  | int _ => "int"
  | decimal _ _ => "float"
  | text _ => "str"
  | bytes _ => "bytes"
  | list _ => "list"
  | tuple _ => "tuple"
  | set _ => "set"
  | mapping _ => "dict"
  | sequence o _ _ _ => o.kind
  | object o => o.kind

/-- The digits of a number without the zeros at its end. -/
def significant (n : Nat) : List Char :=
  ((Nat.toDigits 10 n).reverse.dropWhile (· = '0')).reverse

/-- Between 0.0001 and 10 ^ 16 all digits are written out, and otherwise the point comes behind the
first digit and a power of ten follows. -/
def decimalText (mantissa : Int) (places : Nat) : String :=
  let digits := significant mantissa.natAbs
  let exponent : Int := (Nat.toDigits 10 mantissa.natAbs).length - 1 - places
  let sign := if mantissa < 0 then "-" else ""
  let orZero (cs : List Char) := String.ofList (if cs = [] then ['0'] else cs)
  if mantissa = 0 then "0.0"
  else if 0 ≤ exponent ∧ exponent < 16 then
    let whole := digits.take (exponent.toNat + 1)
    let zeros := List.replicate (exponent.toNat + 1 - whole.length) '0'
    sign ++ String.ofList (whole ++ zeros) ++ "." ++ orZero (digits.drop (exponent.toNat + 1))
  else if -4 ≤ exponent ∧ exponent < 0 then
    sign ++ "0." ++ String.ofList (List.replicate (exponent.natAbs - 1) '0' ++ digits)
  else
    let point := if digits.length = 1 then "" else "."
    let power := Nat.toDigits 10 exponent.natAbs
    let padded := List.replicate (2 - power.length) '0' ++ power
    sign ++ String.ofList (digits.take 1) ++ point ++ String.ofList (digits.drop 1) ++ "e" ++
      (if exponent < 0 then "-" else "+") ++ String.ofList padded

def enclose (opening closing : String) (members : List String) : String :=
  opening ++ ", ".intercalate members ++ closing

/-- A tuple of one member is told from the member by a comma. -/
def tupleText : List String → String
  | [member] => "(" ++ member ++ ",)"
  | members => enclose "(" ")" members

/-- The room for members below a value, if there is any. -/
def roomBelow : Nat → Except Raised Nat
  | 0 => .error .nestedTooDeep
  | room + 1 => .ok room

mutual

/-- The text of a value, with room for so many values nested in one another below it. The members of
a set are written as a list first. -/
def render (limits : Limits) (room : Nat) : Datum → Except Raised String
  | null => .ok "None"
  | bool b => .ok (if b then "True" else "False")
  | int n =>
    if n.natAbs < Nat.pow 10 limits.digits then .ok (toString n)
    else .error (.tooManyDigits limits.digits)
  | decimal mantissa places => .ok (decimalText mantissa places)
  | text s => .ok (Text.quote s)
  | bytes bs => .ok (Text.quoteBytes bs)
  | list members => (renderAll limits room members).map (enclose "[" "]")
  | tuple members => (renderAll limits room members).map tupleText
  | set [] => .ok "set()"
  | set (member :: rest) => do
    let inner ← roomBelow room
    return enclose "\x7b" "\x7d" (← renderAll limits inner (member :: rest))
  | mapping entries => (renderEntries limits room entries).map (enclose "\x7b" "\x7d")
  | sequence o _ _ _ => o.text
  | object o => o.text

def renderAll (limits : Limits) (room : Nat) : List Datum → Except Raised (List String)
  | [] => .ok []
  | member :: rest => do
    let inner ← roomBelow room
    let first ← render limits inner member
    return first :: (← renderAll limits room rest)

def renderEntries (limits : Limits) (room : Nat) :
    List (Datum × Datum) → Except Raised (List String)
  | [] => .ok []
  | (key, value) :: rest => do
    let inner ← roomBelow room
    let first ← render limits inner key
    let second ← render limits inner value
    return (first ++ ": " ++ second) :: (← renderEntries limits room rest)

end

/-- A number as a mantissa and a count of decimal places. -/
def number? : Datum → Option (Int × Nat)
  | bool b => some (if b then 1 else 0, 0)
  | int n => some (n, 0)
  | decimal mantissa places => some (mantissa, places)
  | _ => none

mutual

def same : Datum → Datum → Bool
  | null, null => true
  | text s, text t => s == t
  | bytes bs, bytes cs => bs == cs
  | list xs, list ys => sameAll xs ys
  | tuple xs, tuple ys => sameAll xs ys
  | set xs, set ys => sameAll xs ys
  | mapping xs, mapping ys => sameEntries xs ys
  | sequence o _ _ _, sequence o' _ _ _ => o.id == o'.id
  | object o, object o' => o.id == o'.id
  | x, y =>
    match number? x, number? y with
    | some (m, p), some (n, q) => m * Int.pow 10 q == n * Int.pow 10 p
    | _, _ => false

def sameAll : List Datum → List Datum → Bool
  | [], [] => true
  | x :: xs, y :: ys => same x y && sameAll xs ys
  | _, _ => false

def sameEntries : List (Datum × Datum) → List (Datum × Datum) → Bool
  | [], [] => true
  | (k, v) :: xs, (l, w) :: ys => same k l && same v w && sameEntries xs ys
  | _, _ => false

end

instance : BEq Datum := ⟨same⟩

/-- What a value that is a sequence other than a text gives when it is gone through, or what it
throws when it is asked for its length. -/
def sequence? : Datum → Option (Except Raised Members)
  | list members => some (.ok ⟨members, none⟩)
  | tuple members => some (.ok ⟨members, none⟩)
  | bytes bs => some (.ok ⟨bs.map fun b => int b.toNat, none⟩)
  | sequence _ (some r) _ _ => some (.error r)
  | sequence _ none members stop => some (.ok ⟨members, stop⟩)
  | _ => none

end Datum

end ShiftReduce
