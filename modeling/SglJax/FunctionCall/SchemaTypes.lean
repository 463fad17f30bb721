import SglJax.FunctionCall.ToolCalls

/-! The types of arguments in the schemas of tools. -/
namespace SglJax.FunctionCall

/-- A result of `infer_type_from_json_schema`; a type is whatever stands in the schema. -/
abbrev Inferred := Except PyError (Option Json)

/-- Lists and objects are not hashable. -/
def hashable : Json → Bool
  | .arr _ => false
  | .obj _ => false
  | _ => true

def sameAtom : Json → Json → Bool
  | .null, .null => true
  | .bool a, .bool b => a = b
  | .num a, .num b => a = b
  | .str a, .str b => a = b
  | _, _ => false

/-- The type of all alternatives: their own one, a string, or the first one. -/
def unifyTypes : List Json → Inferred
  | [] => .ok none
  | first :: rest =>
    if (first :: rest).all hashable then
      if rest.all (sameAtom first) then .ok (some first)
      else if rest.any (Json.isStr "string".toList) ∨ Json.isStr "string".toList first then
        .ok (some (.str "string".toList))
      else .ok (some first)
    else .error .typeError

/-- The types that were inferred for the alternatives. -/
def truthyTypes : List Inferred → Except PyError (List Json)
  | [] => .ok []
  | .error e :: _ => .error e
  | .ok found :: rest =>
    (truthyTypes rest).map fun types => (found.filter Json.truthy).toList ++ types

def enumType : Json → Text
  | .null => "null".toList
  | .bool _ => "boolean".toList
  | .num lexeme =>
    if lexeme.any fun c => c = '.' || c = 'e' || c = 'E' then "number".toList
    else "integer".toList
  | .str _ => "string".toList
  | .arr _ => "array".toList
  | .obj _ => "object".toList

/-- The type of the values of an `enum`; mixed ones are strings. -/
def inferEnum : List Json → Text
  | [] => "string".toList
  | first :: rest =>
    if rest.all fun value => enumType value = enumType first then enumType first
    else "string".toList

/-- The first type that is not a string. -/
def inferAllOf : List Inferred → Inferred
  | [] => .ok (some (.str "string".toList))
  | .error e :: _ => .error e
  | .ok (some type) :: rest =>
    if type.truthy ∧ Json.isStr "string".toList type = false then .ok (some type)
    else inferAllOf rest
  | .ok none :: rest => inferAllOf rest

/-- What the field `type` says. -/
def inferDirect (members : List (Text × Json)) : Option Json :=
  match Json.get? members "type".toList with
  | some (.str type) => some (.str type)
  | some (.arr []) => none
  | some (.arr types) =>
    some (((types.filter fun type => !Json.isStr "null".toList type).head?).getD
      (.str "string".toList))
  | _ => none

/-- The key of the alternatives: `schema.get("anyOf") or schema.get("oneOf")`. -/
def alternativesKey (members : List (Text × Json)) : Text :=
  match Json.get? members "anyOf".toList with
  | some value => if value.truthy then "anyOf".toList else "oneOf".toList
  | none => "oneOf".toList

/-- What the rest of a schema says; `inner` has the types of the schemas in its lists. -/
def inferIndirect (members : List (Text × Json)) (inner : List (Text × List Inferred)) : Inferred :=
  let has := fun key : String => (Json.get? members key.toList).isSome
  let schemas := fun key : Text => ((inner.find? fun member => member.1 = key).map Prod.snd).getD []
  let afterAlternatives : Inferred :=
    match Json.get? members "enum".toList, Json.get? members "allOf".toList with
    | some (.arr values), _ => .ok (some (.str (inferEnum values)))
    | _, some (.arr _) => inferAllOf (schemas "allOf".toList)
    | _, _ =>
      if has "properties" then .ok (some (.str "object".toList))
      else if has "items" then .ok (some (.str "array".toList))
      else .ok none
  if has "anyOf" ∨ has "oneOf" then
    match truthyTypes (schemas (alternativesKey members)) with
    | .error e => .error e
    | .ok [] => afterAlternatives
    | .ok types => unifyTypes types
  else afterAlternatives

/-- The type of a schema, and the types of the schemas in a list. -/
structure SchemaTypes where
  type : Inferred
  items : List Inferred

mutual

def schemaTypes : Json → SchemaTypes
  | .obj members =>
    let inner := memberTypes members
    ⟨match inferDirect members with
      | some type => .ok (some type)
      | none => inferIndirect members inner, []⟩
  | .arr items => ⟨.ok none, itemTypes items⟩
  | _ => ⟨.ok none, []⟩

def memberTypes : List (Text × Json) → List (Text × List Inferred)
  | [] => []
  | member :: rest => memberType member :: memberTypes rest

def memberType : Text × Json → Text × List Inferred
  | (key, value) => (key, (schemaTypes value).items)

def itemTypes : List Json → List Inferred
  | [] => []
  | schema :: rest => (schemaTypes schema).type :: itemTypes rest

end

/-- `infer_type_from_json_schema` -/
def inferTypeFromJsonSchema (schema : Json) : Inferred := (schemaTypes schema).type

example : (inferTypeFromJsonSchema (.obj [("anyOf".toList, .arr [.obj [("type".toList,
    .str "number".toList)], .obj [("items".toList, .null)]])])).toOption.join.isSome := rfl

/-- `name2tool.get(func_name)`; the last tool of a name counts. -/
def toolOf (tools : List Tool) (funcName : Text) : Option Tool :=
  tools.reverse.find? fun tool => tool.name = some funcName

/-- The type of a property. -/
def propertyType (properties : Option Json) (argKey : Text) : Inferred :=
  match properties with
  | some (.obj members) =>
    match Json.get? members argKey with
    | some schema => inferTypeFromJsonSchema schema
    | none => .ok none
  | _ => .ok none

end SglJax.FunctionCall
