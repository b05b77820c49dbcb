import Mathlib.Data.List.ReduceOption
import Mathlib.Data.Option.NAry

/-!
# Concatenating JSON values

The aggregates `json_cat_agg` and `jsonb_cat_agg`, which a distributed query uses to put
together what the workers return. Both start from the JSON value `null` and take the first
input that is not NULL as it is; what they do with further ones is different. For `jsonb`
there is an operator. For `json` the state is taken apart and aggregated again, and an
aggregate over no rows is NULL, not an empty array or object.

So a state that should be empty is NULL from the second input on. With arrays this is
mended by the first element that comes, as the elements of NULL are none; with objects it is
not, since a state that is NULL does not have the type `'object'`, and the next input goes
where arrays are expected.

There is another difference between arrays and objects. A value of type `json` is kept as the
text it was given as, and a text may have escapes that stand for no character, such as
`\u0000`. The elements of an array are cut out of that text as they are; `json_each`, which
returns keys, reads all strings of an object as what they stand for, and raises an error where
they do not stand for anything. What this means for a whole aggregate is `json_cat_agg_iff`.

A value of type `json` is a tree with its keys in order, duplicates included, and with its
strings as they are written; a value of type `jsonb` has each key once, and strings as they are
meant. What numbers are, and which characters the server's encoding has, are parameters.
-/

namespace JsonCatAgg

variable {S N M : Type}

/-! ## Strings as they are written -/

/-- A character of a string in a JSON text: itself, or as `\uXXXX`. The escapes of two
characters, which always stand for one, are not told from it. -/
inductive Written
  | char (c : Char)
  | unicode (unit : UInt16)
  deriving DecidableEq

/-- **A string as it is written** in a JSON text. -/
abbrev Text := List Written

/-- `is_utf16_surrogate_first`. -/
def isUtf16SurrogateFirst (c : UInt16) : Bool := 0xD800 ≤ c && c ≤ 0xDBFF

/-- `is_utf16_surrogate_second`. -/
def isUtf16SurrogateSecond (c : UInt16) : Bool := 0xDC00 ≤ c && c ≤ 0xDFFF

/-- `surrogate_pair_to_codepoint`. -/
def surrogatePairToCodepoint (first second : UInt16) : ℕ :=
  (first.toNat &&& 0x3FF) <<< 10 + 0x10000 + (second.toNat &&& 0x3FF)

/-- A character of the server's encoding, for one in Unicode. All of ASCII is in any. -/
def unicodeToServer (encodes : Char → Bool) (c : Char) : Option Char :=
  if c.toNat ≤ 0x7F || encodes c then some c else none

/-- **The de-escaped value of a string**, from a first half of a surrogate pair on, if there is
one. A half alone, the code point zero and what the encoding does not have are errors. -/
def deEscape (encodes : Char → Bool) : Option UInt16 → Text → Option (List Char)
  | none, [] => some []
  | some _, [] => none
  | none, .char c :: text => (deEscape encodes none text).map (c :: ·)
  | some _, .char _ :: _ => none
  | none, .unicode u :: text =>
    if isUtf16SurrogateFirst u then deEscape encodes (some u) text
    else if isUtf16SurrogateSecond u then none
    else if u = 0 then none
    else Option.map₂ (· :: ·) (unicodeToServer encodes (Char.ofNat u.toNat))
      (deEscape encodes none text)
  | some first, .unicode u :: text =>
    if isUtf16SurrogateSecond u then
      Option.map₂ (· :: ·)
        (unicodeToServer encodes (Char.ofNat (surrogatePairToCodepoint first u)))
        (deEscape encodes none text)
    else none

/-- A string that the server understands. -/
def understood (encodes : Char → Bool) (text : Text) : Bool := (deEscape encodes none text).isSome

/-- What a string stands for, if it is understood. -/
def meant (encodes : Char → Bool) (text : Text) : String :=
  String.ofList ((deEscape encodes none text).getD [])

/-- A string written anew, with escapes that are understood where it takes any. -/
def escapeJson (s : String) : Text := s.toList.map .char

/-! ## Values and what is done with them -/

/-- **A JSON value**, with its strings from `S` and its numbers from `N`. -/
inductive Json (S N : Type)
  | null
  | bool (b : Bool)
  | number (n : N)
  | string (s : S)
  | array (elements : List (Json S N))
  | object (fields : List (S × Json S N))

/-- What `json_typeof` returns. -/
inductive JsonType
  | null | boolean | number | string | array | object
  deriving DecidableEq

/-- What the functions on `json` may raise. -/
inductive Error
  | arrayElementsOfScalar
  | arrayElementsOfNonArray
  | eachOfScalar
  | eachOfArray
  /-- `JSON_UNICODE_CODE_POINT_ZERO`, `JSON_UNICODE_HIGH_SURROGATE` and the like. -/
  | untranslatableCharacter
  deriving DecidableEq

/-- The type of a value. -/
def Json.type : Json S N → JsonType
  | null => .null
  | bool _ => .boolean
  | number _ => .number
  | string _ => .string
  | array _ => .array
  | object _ => .object

mutual

/-- **All strings of a value are understood**, keys included. -/
def Json.understood (encodes : Char → Bool) : Json Text N → Bool
  | .null => true
  | .bool _ => true
  | .number _ => true
  | .string s => JsonCatAgg.understood encodes s
  | .array elements => elementsUnderstood encodes elements
  | .object fields => fieldsUnderstood encodes fields

/-- The same for the elements of an array. -/
def elementsUnderstood (encodes : Char → Bool) : List (Json Text N) → Bool
  | [] => true
  | j :: elements => j.understood encodes && elementsUnderstood encodes elements

/-- The same for the fields of an object. -/
def fieldsUnderstood (encodes : Char → Bool) : List (Text × Json Text N) → Bool
  | [] => true
  | (k, j) :: fields =>
    JsonCatAgg.understood encodes k && j.understood encodes && fieldsUnderstood encodes fields

end

/-- `json_typeof` and `jsonb_typeof`, which are strict. -/
def jsonTypeof (j : Option (Json S N)) : Option JsonType := j.map Json.type

/-- `json_array_elements`, which cuts elements out of the text. Of NULL there are no rows. -/
def jsonArrayElements : Option (Json S N) → Except Error (List (Json S N))
  | none => .ok []
  | some (.array elements) => .ok elements
  | some (.object _) => .error .arrayElementsOfNonArray
  | some _ => .error .arrayElementsOfScalar

/-- A field, with its key as it is meant and its value as it is written. -/
def keyed (encodes : Char → Bool) (f : Text × Json Text N) : String × Json Text N :=
  (meant encodes f.1, f.2)

/-- `json_each`, which reads all strings as what they stand for. -/
def jsonEach (encodes : Char → Bool) :
    Option (Json Text N) → Except Error (List (String × Json Text N))
  | none => .ok []
  | some (.object fields) =>
    if fieldsUnderstood encodes fields then .ok (fields.map (keyed encodes))
    else .error .untranslatableCharacter
  | some (.array _) => .error .eachOfArray
  | some (.string s) =>
    if understood encodes s then .error .eachOfScalar else .error .untranslatableCharacter
  | some _ => .error .eachOfScalar

/-- `json_agg`, which is NULL over no rows. -/
def jsonAgg : List (Json Text N) → Option (Json Text N)
  | [] => none
  | rows => some (.array rows)

/-- A row of an object aggregate as a field. -/
def written (row : String × Json Text N) : Text × Json Text N := (escapeJson row.1, row.2)

/-- `json_object_agg`, which is NULL over no rows. -/
def jsonObjectAgg : List (String × Json Text N) → Option (Json Text N)
  | [] => none
  | rows => some (.object (rows.map written))

/-- `citus_json_concatenate`. -/
def citusJsonConcatenate (encodes : Char → Bool) (state val : Option (Json Text N)) :
    Except Error (Option (Json Text N)) :=
  if val.isNone then .ok state
  else if jsonTypeof state = some .null then .ok val
  else if jsonTypeof state = some .object then do
    let fields ← jsonEach encodes state
    let more ← jsonEach encodes val
    return jsonObjectAgg (fields ++ more)
  else do
    let elements ← jsonArrayElements state
    let more ← jsonArrayElements val
    return jsonAgg (elements ++ more)

/-- `citus_json_concatenate_final` and `citus_jsonb_concatenate_final`. -/
def citusJsonConcatenateFinal (state : Option (Json S N)) : Option (Json S N) :=
  if jsonTypeof state = some .null then none else state

/-- The aggregate `json_cat_agg`. -/
def jsonCatAgg (encodes : Char → Bool) (inputs : List (Option (Json Text N))) :
    Except Error (Option (Json Text N)) :=
  (inputs.foldlM (citusJsonConcatenate encodes) (some .null)).map citusJsonConcatenateFinal

/-! ## `jsonb` -/

/-- A field takes the place of the one with its key; keys are in order of their length and
then of their characters. -/
def insertField (key : String) (value : Json String N) :
    List (String × Json String N) → List (String × Json String N)
  | [] => [(key, value)]
  | (k, v) :: fields =>
    if key = k then (key, value) :: fields
    else if key.utf8ByteSize < k.utf8ByteSize ∨ key.utf8ByteSize = k.utf8ByteSize ∧ key < k then
      (key, value) :: (k, v) :: fields
    else (k, v) :: insertField key value fields

/-- Fields on top of others. -/
def insertFields (fields more : List (String × Json String N)) : List (String × Json String N) :=
  more.foldl (fun fields f => insertField f.1 f.2 fields) fields

/-- The text of a string in `jsonb`, if it is understood. -/
def jsonbString (encodes : Char → Bool) (text : Text) : Option String :=
  if understood encodes text then some (meant encodes text) else none

mutual

/-- **The conversion from `json` to `jsonb`**, which strings and numbers may not allow. -/
def jsonToJsonb (encodes : Char → Bool) (numericIn : N → Option M) :
    Json Text N → Option (Json String M)
  | .null => some .null
  | .bool b => some (.bool b)
  | .number n => (numericIn n).map .number
  | .string s => (jsonbString encodes s).map .string
  | .array elements => (elementsToJsonb encodes numericIn elements).map .array
  | .object fields =>
    (fieldsToJsonb encodes numericIn fields).map fun fields => .object (insertFields [] fields)

/-- The same for the elements of an array. -/
def elementsToJsonb (encodes : Char → Bool) (numericIn : N → Option M) :
    List (Json Text N) → Option (List (Json String M))
  | [] => some []
  | j :: elements => Option.map₂ (· :: ·) (jsonToJsonb encodes numericIn j)
      (elementsToJsonb encodes numericIn elements)

/-- The same for the fields of an object. -/
def fieldsToJsonb (encodes : Char → Bool) (numericIn : N → Option M) :
    List (Text × Json Text N) → Option (List (String × Json String M))
  | [] => some []
  | (k, j) :: fields => Option.map₂ (· :: ·)
      (Option.map₂ Prod.mk (jsonbString encodes k) (jsonToJsonb encodes numericIn j))
      (fieldsToJsonb encodes numericIn fields)

end

/-- NULL is converted to NULL. -/
def nullToJsonb (encodes : Char → Bool) (numericIn : N → Option M) :
    Option (Json Text N) → Option (Option (Json String M))
  | none => some none
  | some j => (jsonToJsonb encodes numericIn j).map some

/-- A value as the elements of an array, for `||`. -/
def asElements : Json String N → List (Json String N)
  | .array elements => elements
  | j => [j]

/-- The operator `||` on `jsonb`: of two objects, the fields of both; else one array. -/
def jsonbConcat : Json String N → Json String N → Json String N
  | .object fields, .object more => .object (insertFields fields more)
  | j₁, j₂ => .array (asElements j₁ ++ asElements j₂)

/-- `citus_jsonb_concatenate`. -/
def citusJsonbConcatenate (state val : Option (Json String N)) : Option (Json String N) :=
  if val.isNone then state
  else if jsonTypeof state = some .null then val
  else Option.map₂ jsonbConcat state val

/-- The aggregate `jsonb_cat_agg`. -/
def jsonbCatAgg (inputs : List (Option (Json String N))) : Option (Json String N) :=
  citusJsonConcatenateFinal (inputs.foldl citusJsonbConcatenate (some .null))

/-! ## What the aggregates are for -/

/-- Inputs that are NULL or arrays. -/
def arrays (inputs : List (Option (List (Json S N)))) : List (Option (Json S N)) :=
  inputs.map (Option.map .array)

/-- Inputs that are NULL or objects. -/
def objects (inputs : List (Option (List (S × Json S N)))) : List (Option (Json S N)) :=
  inputs.map (Option.map .object)

/-- NULL if there is nothing else, and else one array of all elements. -/
def concatenation (inputs : List (Option (List (Json S N)))) : Option (Json S N) :=
  if inputs.reduceOption = [] then none else some (.array inputs.reduceOption.flatten)

/-- **Arrays are concatenated**, and as `jsonb_cat_agg` does it with what they are as
`jsonb`. -/
def ArraysConcatenated (encodes : Char → Bool) (numericIn : N → Option M)
    (inputs : List (Option (List (Json Text N)))) : Prop :=
  jsonCatAgg encodes (arrays inputs) = .ok (concatenation inputs) ∧
  ∀ inputs', (arrays inputs).mapM (nullToJsonb encodes numericIn) = some inputs' →
    ∃ result, jsonCatAgg encodes (arrays inputs) = .ok result ∧
      nullToJsonb encodes numericIn result = some (jsonbCatAgg inputs')

/-- A key in the one way that it is written anew; one that is not understood stays. -/
def rewritten (encodes : Char → Bool) (key : Text) : Text :=
  if understood encodes key then escapeJson (meant encodes key) else key

/-- Fields are the same, up to how their keys are written. -/
def SameFields (encodes : Char → Bool) (fields fields' : List (Text × Json Text N)) : Prop :=
  fields.map (fun f => (rewritten encodes f.1, f.2)) =
    fields'.map fun f => (rewritten encodes f.1, f.2)

/-- **Objects are concatenated**, or the result is NULL. -/
def ObjectsConcatenated (encodes : Char → Bool)
    (inputs : List (Option (List (Text × Json Text N)))) : Prop :=
  ∃ result, jsonCatAgg encodes (objects inputs) = .ok result ∧
    (result = none ∨ ∃ fields, result = some (.object fields) ∧
      SameFields encodes fields inputs.reduceOption.flatten)

/-! ## Keys -/

section Keys

variable {encodes : Char → Bool}

theorem deEscape_map_char (l : List Char) : deEscape encodes none (l.map .char) = some l := by
  induction l with
  | nil => rfl
  | cons c l ih =>
    show (deEscape encodes none (l.map .char)).map (c :: ·) = some (c :: l)
    rw [ih]
    rfl

/-- **What is written anew is understood**, and means what it did. -/
theorem understood_escapeJson (s : String) : understood encodes (escapeJson s) = true := by
  unfold understood escapeJson
  rw [deEscape_map_char]
  rfl

theorem meant_escapeJson (s : String) : meant encodes (escapeJson s) = s := by
  unfold meant escapeJson
  rw [deEscape_map_char]
  exact String.ofList_toList

theorem keyed_written (row : String × Json Text N) : keyed encodes (written row) = row :=
  Prod.ext (meant_escapeJson row.1) rfl

theorem fieldsUnderstood_cons (f : Text × Json Text N) (fields : List (Text × Json Text N)) :
    fieldsUnderstood encodes (f :: fields) =
      (understood encodes f.1 && f.2.understood encodes && fieldsUnderstood encodes fields) := by
  obtain ⟨k, j⟩ := f
  rw [fieldsUnderstood]

theorem fieldsUnderstood_append (fields more : List (Text × Json Text N)) :
    fieldsUnderstood encodes (fields ++ more) =
      (fieldsUnderstood encodes fields && fieldsUnderstood encodes more) := by
  induction fields with
  | nil => rfl
  | cons f fields ih =>
    rw [List.cons_append, fieldsUnderstood_cons, fieldsUnderstood_cons, ih, Bool.and_assoc,
      Bool.and_assoc, Bool.and_assoc]

/-- Writing the keys anew leaves the values, and what is not understood in them. -/
theorem fieldsUnderstood_written {fields : List (Text × Json Text N)}
    (h : fieldsUnderstood encodes fields = true) :
    fieldsUnderstood encodes ((fields.map (keyed encodes)).map written) = true := by
  induction fields with
  | nil => rfl
  | cons f fields ih =>
    rw [fieldsUnderstood_cons, Bool.and_eq_true, Bool.and_eq_true] at h
    obtain ⟨⟨-, hvalue⟩, hrest⟩ := h
    rw [List.map_cons, List.map_cons, fieldsUnderstood_cons, ih hrest, Bool.and_true,
      Bool.and_eq_true]
    exact ⟨understood_escapeJson _, hvalue⟩

/-- Keys that are understood are written anew the same way. -/
theorem sameFields_written {fields : List (Text × Json Text N)}
    (h : fieldsUnderstood encodes fields = true) :
    SameFields encodes ((fields.map (keyed encodes)).map written) fields := by
  unfold SameFields
  induction fields with
  | nil => rfl
  | cons f fields ih =>
    rw [fieldsUnderstood_cons, Bool.and_eq_true, Bool.and_eq_true] at h
    obtain ⟨⟨hkey, -⟩, hrest⟩ := h
    have hf : rewritten encodes (written (keyed encodes f)).1 = rewritten encodes f.1 := by
      show rewritten encodes (escapeJson (meant encodes f.1)) = rewritten encodes f.1
      unfold rewritten
      rw [if_pos hkey, if_pos (understood_escapeJson _), meant_escapeJson]
    rw [List.map_cons, List.map_cons, List.map_cons, List.map_cons, ih hrest, hf]
    rfl

end Keys

/-! ## One step -/

variable (encodes : Char → Bool) (numericIn : N → Option M)

/-- **An array is added to an aggregate of elements**, also if there were none and the state
is NULL. -/
theorem citusJsonConcatenate_jsonAgg (elements more : List (Json Text N)) :
    citusJsonConcatenate encodes (jsonAgg elements) (some (.array more)) =
      .ok (jsonAgg (elements ++ more)) := by
  cases elements <;> rfl

theorem jsonEach_object (fields : List (Text × Json Text N)) :
    jsonEach encodes (some (.object fields)) =
      if fieldsUnderstood encodes fields then .ok (fields.map (keyed encodes))
      else .error .untranslatableCharacter := rfl

/-- **An object is added to another one** if all strings of both are understood. -/
theorem citusJsonConcatenate_object (fields more : List (Text × Json Text N)) :
    citusJsonConcatenate encodes (some (.object fields)) (some (.object more)) =
      if fieldsUnderstood encodes (fields ++ more) then
        .ok (jsonObjectAgg ((fields ++ more).map (keyed encodes)))
      else .error .untranslatableCharacter := by
  show (do
    let rows ← jsonEach encodes (some (.object fields))
    let rows' ← jsonEach encodes (some (.object more))
    return jsonObjectAgg (rows ++ rows')) = _
  rw [fieldsUnderstood_append, List.map_append, jsonEach_object, jsonEach_object]
  cases fieldsUnderstood encodes fields with
  | false => rfl
  | true => cases fieldsUnderstood encodes more <;> rfl

/-! ## A whole aggregate -/

/-- NULLs are passed over. -/
theorem foldlM_citusJsonConcatenate {α : Type} (f : α → Json Text N) (inputs : List (Option α))
    (state : Option (Json Text N)) :
    (inputs.map (Option.map f)).foldlM (citusJsonConcatenate encodes) state =
      (inputs.reduceOption.map fun v => some (f v)).foldlM
        (citusJsonConcatenate encodes) state := by
  induction inputs generalizing state with
  | nil => rfl
  | cons val inputs ih =>
    cases val with
    | none => exact ih state
    | some v =>
      rw [List.reduceOption_cons_of_some, List.map_cons, List.map_cons, List.foldlM_cons,
        List.foldlM_cons]
      exact congrArg _ (funext ih)

/-- Arrays that come after the second one. -/
theorem foldlM_jsonAgg (vals : List (List (Json Text N))) (elements : List (Json Text N)) :
    (vals.map fun v => some (Json.array v)).foldlM (citusJsonConcatenate encodes)
      (jsonAgg elements) = .ok (jsonAgg (elements ++ vals.flatten)) := by
  induction vals generalizing elements with
  | nil => rw [List.flatten_nil, List.append_nil]; rfl
  | cons v vals ih =>
    rw [List.map_cons, List.foldlM_cons, citusJsonConcatenate_jsonAgg, List.flatten_cons,
      ← List.append_assoc]
    exact ih (elements ++ v)

/-- Objects that come after some fields: an aggregate of all of them, if all strings are
understood. -/
theorem foldlM_object (vals : List (List (Text × Json Text N)))
    {fields : List (Text × Json Text N)} (hne : fields ≠ [])
    (hfields : fieldsUnderstood encodes fields = true) :
    (vals.map fun v => some (Json.object v)).foldlM (citusJsonConcatenate encodes)
      (some (.object ((fields.map (keyed encodes)).map written))) =
      if fieldsUnderstood encodes vals.flatten then
        .ok (some (.object (((fields ++ vals.flatten).map (keyed encodes)).map written)))
      else .error .untranslatableCharacter := by
  induction vals generalizing fields with
  | nil => rw [List.flatten_nil, List.append_nil]; rfl
  | cons v vals ih =>
    rw [List.map_cons, List.foldlM_cons, citusJsonConcatenate_object, fieldsUnderstood_append,
      fieldsUnderstood_written hfields, Bool.true_and, List.flatten_cons, fieldsUnderstood_append]
    cases hv : fieldsUnderstood encodes v with
    | false => rfl
    | true =>
      have hagg : jsonObjectAgg (((fields.map (keyed encodes)).map written ++ v).map
          (keyed encodes)) =
            some (.object (((fields ++ v).map (keyed encodes)).map written)) := by
        rw [List.map_append, List.map_map, funext (f := keyed encodes ∘ written) keyed_written,
          List.map_id', ← List.map_append]
        cases hfv : fields ++ v with
        | nil => exact absurd hfv (List.append_ne_nil_of_left_ne_nil hne v)
        | cons f l => rfl
      have hboth : fieldsUnderstood encodes (fields ++ v) = true := by
        rw [fieldsUnderstood_append, hfields, hv]
        rfl
      rw [Bool.true_and, ← List.append_assoc, hagg]
      exact ih (List.append_ne_nil_of_left_ne_nil hne v) hboth

/-- **What `json_cat_agg` makes of arrays**: the first one, and from the second on an
aggregate of all elements. -/
theorem jsonCatAgg_arrays (inputs : List (Option (List (Json Text N)))) :
    jsonCatAgg encodes (arrays inputs) =
      .ok (if inputs.reduceOption.length < 2 then concatenation inputs
        else jsonAgg inputs.reduceOption.flatten) := by
  unfold jsonCatAgg arrays concatenation
  rw [foldlM_citusJsonConcatenate]
  generalize inputs.reduceOption = vals
  cases vals with
  | nil => rfl
  | cons a vals =>
    cases vals with
    | nil => rw [List.flatten_cons, List.flatten_nil, List.append_nil]; rfl
    | cons b vals =>
      show (List.foldlM (citusJsonConcatenate encodes) (jsonAgg (a ++ b)) _).map _ = _
      rw [foldlM_jsonAgg, List.append_assoc]
      show Except.ok (citusJsonConcatenateFinal (jsonAgg (a ++ (b ++ vals.flatten)))) =
        .ok (jsonAgg (a ++ (b ++ vals.flatten)))
      cases a ++ (b ++ vals.flatten) <;> rfl

/-- From two objects on, the fields of the first two decide. -/
theorem jsonCatAgg_objects {inputs : List (Option (List (Text × Json Text N)))}
    {a b : List (Text × Json Text N)} {vals : List (List (Text × Json Text N))}
    (h : inputs.reduceOption = a :: b :: vals) :
    jsonCatAgg encodes (objects inputs) =
      if fieldsUnderstood encodes (a ++ b) then
        ((vals.map fun v => some (Json.object v)).foldlM (citusJsonConcatenate encodes)
          (jsonObjectAgg ((a ++ b).map (keyed encodes)))).map citusJsonConcatenateFinal
      else .error .untranslatableCharacter := by
  unfold jsonCatAgg objects
  rw [foldlM_citusJsonConcatenate, h]
  show (List.foldlM (citusJsonConcatenate encodes) (some (.object a)) _).map _ = _
  rw [List.map_cons, List.foldlM_cons, citusJsonConcatenate_object]
  cases fieldsUnderstood encodes (a ++ b) <;> rfl

/-- Arrays that come after the first one, for `jsonb`. -/
theorem foldl_array (inputs : List (Option (List (Json String M))))
    (elements : List (Json String M)) :
    (arrays inputs).foldl citusJsonbConcatenate (some (.array elements)) =
      some (.array (elements ++ inputs.reduceOption.flatten)) := by
  induction inputs generalizing elements with
  | nil =>
    show some (Json.array elements) = some (.array (elements ++ []))
    rw [List.append_nil]
  | cons val inputs ih =>
    cases val with
    | none => exact ih elements
    | some v =>
      rw [List.reduceOption_cons_of_some, List.flatten_cons, ← List.append_assoc]
      exact ih (elements ++ v)

/-- What `jsonb_cat_agg` makes of arrays. -/
theorem jsonbCatAgg_arrays (inputs : List (Option (List (Json String M)))) :
    jsonbCatAgg (arrays inputs) = concatenation inputs := by
  induction inputs with
  | nil => rfl
  | cons val inputs ih =>
    cases val with
    | none => exact ih
    | some v =>
      show citusJsonConcatenateFinal
        ((arrays inputs).foldl citusJsonbConcatenate (some (.array v))) = _
      rw [foldl_array]
      unfold concatenation
      rw [List.reduceOption_cons_of_some, if_neg (List.cons_ne_nil v _), List.flatten_cons]
      rfl

/-! ## The conversion -/

section Conversion

variable {encodes numericIn}

theorem elementsToJsonb_append {elements more : List (Json Text N)}
    {elements' more' : List (Json String M)}
    (h : elementsToJsonb encodes numericIn elements = some elements')
    (hmore : elementsToJsonb encodes numericIn more = some more') :
    elementsToJsonb encodes numericIn (elements ++ more) = some (elements' ++ more') := by
  induction elements generalizing elements' with
  | nil =>
    rw [elementsToJsonb, Option.some.injEq] at h
    rw [← h]
    exact hmore
  | cons j elements ih =>
    rw [elementsToJsonb, Option.map₂_eq_some_iff] at h
    obtain ⟨j', rest, hj, hrest, rfl⟩ := h
    rw [List.cons_append, elementsToJsonb, ih hrest, hj]
    rfl

/-- **Inputs converted one by one** are arrays of what their elements are converted to. -/
theorem exists_of_mapM_arrays {inputs : List (Option (List (Json Text N)))}
    {inputs' : List (Option (Json String M))}
    (h : (arrays inputs).mapM (nullToJsonb encodes numericIn) = some inputs') :
    ∃ converted, inputs' = arrays converted ∧
      (inputs.reduceOption = [] ↔ converted.reduceOption = []) ∧
      elementsToJsonb encodes numericIn inputs.reduceOption.flatten =
        some converted.reduceOption.flatten := by
  induction inputs generalizing inputs' with
  | nil => exact ⟨[], (Option.some.inj h).symm, iff_of_true rfl rfl, rfl⟩
  | cons val inputs ih =>
    rw [arrays, List.map_cons, List.mapM_cons] at h
    obtain ⟨val', hval, h⟩ := Option.bind_eq_some_iff.mp h
    obtain ⟨rest, hrest, h⟩ := Option.bind_eq_some_iff.mp h
    obtain ⟨converted, rfl, hnil, hflat⟩ := ih hrest
    rw [← Option.some.inj h]
    cases val with
    | none =>
      rw [← Option.some.inj hval]
      exact ⟨none :: converted, rfl, hnil, hflat⟩
    | some elements =>
      obtain ⟨j, hj, rfl⟩ := Option.map_eq_some_iff.mp hval
      obtain ⟨elements', helements, rfl⟩ := Option.map_eq_some_iff.mp hj
      refine ⟨some elements' :: converted, rfl, ?_, ?_⟩
      · rw [List.reduceOption_cons_of_some, List.reduceOption_cons_of_some]
        exact iff_of_false (List.cons_ne_nil _ _) (List.cons_ne_nil _ _)
      · rw [List.reduceOption_cons_of_some, List.reduceOption_cons_of_some, List.flatten_cons,
          List.flatten_cons]
        exact elementsToJsonb_append helements hflat

/-- **The conversion of the concatenation** is the concatenation of what is converted. -/
theorem nullToJsonb_concatenation {inputs : List (Option (List (Json Text N)))}
    {inputs' : List (Option (Json String M))}
    (h : (arrays inputs).mapM (nullToJsonb encodes numericIn) = some inputs') :
    nullToJsonb encodes numericIn (concatenation inputs) = some (jsonbCatAgg inputs') := by
  obtain ⟨converted, rfl, hnil, hflat⟩ := exists_of_mapM_arrays h
  rw [jsonbCatAgg_arrays]
  unfold concatenation
  by_cases hempty : inputs.reduceOption = []
  · rw [if_pos hempty, if_pos (hnil.mp hempty)]
    rfl
  · rw [if_neg hempty, if_neg (hempty ∘ hnil.mpr)]
    show ((elementsToJsonb encodes numericIn inputs.reduceOption.flatten).map _).map some = _
    rw [hflat]
    rfl

end Conversion

/-! ## When the results are right -/

/-- **Arrays are concatenated unless all of several are empty.** -/
theorem arraysConcatenated_iff (inputs : List (Option (List (Json Text N)))) :
    ArraysConcatenated encodes numericIn inputs ↔
      (2 ≤ inputs.reduceOption.length → ∃ elements ∈ inputs.reduceOption, elements ≠ []) := by
  have hagree : jsonCatAgg encodes (arrays inputs) = .ok (concatenation inputs) →
      ArraysConcatenated encodes numericIn inputs :=
    fun h => ⟨h, fun inputs' h' => ⟨_, h, nullToJsonb_concatenation h'⟩⟩
  refine Iff.trans ⟨fun h => h.1, hagree⟩ ?_
  rw [jsonCatAgg_arrays]
  by_cases hlen : inputs.reduceOption.length < 2
  · rw [if_pos hlen]
    exact ⟨fun _ h => absurd hlen (Nat.not_lt.mpr h), fun _ => rfl⟩
  rw [if_neg hlen]
  have hne : inputs.reduceOption ≠ [] := by
    intro h
    exact hlen (by rw [h]; exact Nat.two_pos)
  have hcat : concatenation inputs = some (.array inputs.reduceOption.flatten) := if_neg hne
  constructor
  · rintro h -
    by_contra hall
    push Not at hall
    have hflat : inputs.reduceOption.flatten = [] := List.flatten_eq_nil_iff.mpr hall
    rw [hcat, hflat] at h
    exact nomatch Except.ok.inj h
  · intro h
    obtain ⟨elements, hmem, hnil⟩ := h (Nat.not_lt.mp hlen)
    rw [hcat]
    cases hflat : inputs.reduceOption.flatten with
    | nil => exact absurd (List.flatten_eq_nil_iff.mp hflat elements hmem) hnil
    | cons j l => rfl

/-- All strings of all of several objects are understood together. -/
theorem fieldsUnderstood_flatten (vals : List (List (Text × Json Text N))) :
    fieldsUnderstood encodes vals.flatten = true ↔
      ∀ fields ∈ vals, fieldsUnderstood encodes fields = true := by
  induction vals with
  | nil => exact iff_of_true rfl fun _ h => nomatch h
  | cons v vals ih =>
    rw [List.flatten_cons, fieldsUnderstood_append, Bool.and_eq_true, ih, List.forall_mem_cons]

/-- **Objects are concatenated unless another one comes after two empty ones**, or some string
of several is not understood. -/
theorem objectsConcatenated_iff (inputs : List (Option (List (Text × Json Text N)))) :
    ObjectsConcatenated encodes inputs ↔
      (∀ fields vals, inputs.reduceOption ≠ [] :: [] :: fields :: vals) ∧
      (2 ≤ inputs.reduceOption.length →
        ∀ fields ∈ inputs.reduceOption, fieldsUnderstood encodes fields = true) := by
  rw [← fieldsUnderstood_flatten]
  unfold ObjectsConcatenated
  cases hvals : inputs.reduceOption with
  | nil =>
    refine iff_of_true ⟨none, ?_, .inl rfl⟩ ⟨(fun _ _ h => nomatch h), fun _ => rfl⟩
    unfold jsonCatAgg objects
    rw [foldlM_citusJsonConcatenate, hvals]
    rfl
  | cons a vals =>
    cases vals with
    | nil =>
      refine iff_of_true ⟨some (.object a), ?_, .inr ⟨a, rfl, ?_⟩⟩
        ⟨(fun _ _ h => nomatch h), fun h => absurd h (by simp)⟩
      · unfold jsonCatAgg objects
        rw [foldlM_citusJsonConcatenate, hvals]
        rfl
      · rw [List.flatten_singleton]
        rfl
    | cons b vals =>
      have hflat : (a :: b :: vals).flatten = (a ++ b) ++ vals.flatten := by
        rw [List.flatten_cons, List.flatten_cons, List.append_assoc]
      have hlen : 2 ≤ (a :: b :: vals).length := Nat.le_add_left 2 _
      rw [jsonCatAgg_objects encodes hvals, hflat, fieldsUnderstood_append (a ++ b)]
      cases hread : fieldsUnderstood encodes (a ++ b) with
      | false =>
        refine iff_of_false ?_ fun h => nomatch h.2 hlen
        rintro ⟨_, h, _⟩
        cases h
      | true =>
        cases hab : a ++ b with
        | nil =>
          obtain ⟨rfl, rfl⟩ := List.append_eq_nil_iff.mp hab
          cases vals with
          | nil =>
            exact iff_of_true ⟨none, rfl, .inl rfl⟩ ⟨(fun _ _ h => nomatch h), fun _ => rfl⟩
          | cons fields vals =>
            refine iff_of_false ?_ fun h => h.1 fields vals rfl
            rintro ⟨_, h, _⟩
            cases h
        | cons f l =>
          have hfirst : ∀ fields vals', a :: b :: vals ≠ [] :: [] :: fields :: vals' := by
            intro fields vals' h
            simp only [List.cons.injEq] at h
            rw [h.1, h.2.1] at hab
            cases hab
          have hfold := foldlM_object encodes vals (List.cons_ne_nil f l) (hab ▸ hread)
          have hagg : jsonObjectAgg ((f :: l).map (keyed encodes)) =
              some (.object (((f :: l).map (keyed encodes)).map written)) := rfl
          rw [if_pos rfl, hagg, hfold]
          cases hmore : fieldsUnderstood encodes vals.flatten with
          | false =>
            refine iff_of_false ?_ fun h => nomatch h.2 hlen
            rintro ⟨_, h, _⟩
            cases h
          | true =>
            refine iff_of_true ⟨_, rfl, .inr ⟨_, rfl, ?_⟩⟩ ⟨hfirst, fun _ => rfl⟩
            refine sameFields_written ?_
            rw [fieldsUnderstood_append, ← hab, hread, hmore]
            rfl

/-- **When `json_cat_agg` does what it is for.** -/
theorem json_cat_agg_iff :
    (∀ inputs : List (Option (List (Json Text N))), ArraysConcatenated encodes numericIn inputs ↔
      (2 ≤ inputs.reduceOption.length → ∃ elements ∈ inputs.reduceOption, elements ≠ [])) ∧
    (∀ inputs : List (Option (List (Text × Json Text N))), ObjectsConcatenated encodes inputs ↔
      (∀ fields vals, inputs.reduceOption ≠ [] :: [] :: fields :: vals) ∧
      (2 ≤ inputs.reduceOption.length →
        ∀ fields ∈ inputs.reduceOption, fieldsUnderstood encodes fields = true)) :=
  ⟨arraysConcatenated_iff encodes numericIn, objectsConcatenated_iff encodes⟩

/-- The object `{"a":"\u0000"}`. -/
def escapedZero : Json Text ℕ := .object [([.char 'a'], .string [.unicode 0])]

/-- The object `{"b":1}`. -/
def objectOne : Json Text ℕ := .object [([.char 'b'], .number 1)]

/-- **Two empty arrays make NULL, and a third empty object raises an error**; so does an escape
that stands for no character. The encoding is UTF-8. -/
theorem json_cat_agg_empty :
    jsonCatAgg (fun _ => true) [some (.array []), some (.array [] : Json Text ℕ)] = .ok none ∧
    ¬ ArraysConcatenated (fun _ => true) (some : ℕ → Option ℕ) [some [], some []] ∧
    jsonCatAgg (fun _ => true)
      [some (.object []), some (.object []), some (.object [] : Json Text ℕ)] =
      .error .arrayElementsOfNonArray ∧
    ¬ ObjectsConcatenated (N := ℕ) (fun _ => true) [some [], some [], some []] ∧
    jsonCatAgg (fun _ => true) [some escapedZero, some objectOne] =
      .error .untranslatableCharacter := by
  refine ⟨rfl, ?_, rfl, ?_, rfl⟩
  · rintro ⟨h, -⟩
    exact nomatch Except.ok.inj h
  · rintro ⟨result, h, -⟩
    exact nomatch h

end JsonCatAgg
