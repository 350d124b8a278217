import VendorPrefixing.Decimal.Reading
import VendorPrefixing.Text.WhiteSpace
import VendorPrefixing.Value.Matcher

/-!
# Flexible boxes

Flexible boxes were specified three times, with other names and other values
each time:

- in 2009 as `display: box` with `box-orient`, `box-flex`, `box-pack` and others;
- in 2012 as `display: flexbox` with `flex-pack`, `flex-align` and others;
- finally under the standard names.

A vendor mark stands for the specifications that its browsers implemented.

Main results:

- Theorem `FlexProperty.ofName?_name`: a property is found under its name.
- Theorem `Flexbox.forms_of_eras_nil`: a mark without specifications writes
  nothing.
-/

namespace VendorPrefixing

/-- The specifications of flexible boxes. -/
inductive FlexEra
  | of2009
  | of2012
  | final
deriving DecidableEq, Repr

/-- The properties of flexible boxes. -/
inductive FlexProperty
  | flex
  | direction
  | wrap
  | flow
  | grow
  | shrink
  | basis
  | order
  | alignItems
  | alignSelf
  | alignContent
  | justifyContent
deriving DecidableEq, Repr

namespace FlexEra

/-- The specifications that a vendor mark has to be written for, in the order in
which they are written. -/
def ofVendor (vendor : String) : List FlexEra :=
  if vendor = "-webkit-" then [.of2009, .final]
  else if vendor = "-moz-" then [.of2009]
  else if vendor = "-ms-" then [.of2012]
  else []

end FlexEra

namespace FlexProperty

/-- Every property of flexible boxes. -/
def all : List FlexProperty :=
  [.flex, .direction, .wrap, .flow, .grow, .shrink, .basis, .order, .alignItems, .alignSelf,
    .alignContent, .justifyContent]

/-- The standard name. -/
def name : FlexProperty → String
  | flex => "flex"
  | direction => "flex-direction"
  | wrap => "flex-wrap"
  | flow => "flex-flow"
  | grow => "flex-grow"
  | shrink => "flex-shrink"
  | basis => "flex-basis"
  | order => "order"
  | alignItems => "align-items"
  | alignSelf => "align-self"
  | alignContent => "align-content"
  | justifyContent => "justify-content"

/-- The property with a standard name. -/
def ofName? (name : String) : Option FlexProperty :=
  all.find? (·.name == name)

/-- The names of 2009; some properties have none and some have two. -/
def names2009 : FlexProperty → List String
  | direction | flow => ["box-orient", "box-direction"]
  | flex | grow => ["box-flex"]
  | order => ["box-ordinal-group"]
  | alignItems => ["box-align"]
  | justifyContent => ["box-pack"]
  | wrap | shrink | basis | alignSelf | alignContent => []

/-- The name of 2012. -/
def name2012 : FlexProperty → String
  | flex => "flex"
  | direction => "flex-direction"
  | wrap => "flex-wrap"
  | flow => "flex-flow"
  | grow => "flex-positive"
  | shrink => "flex-negative"
  | basis => "flex-preferred-size"
  | order => "flex-order"
  | alignItems => "flex-align"
  | alignSelf => "flex-item-align"
  | alignContent => "flex-line-pack"
  | justifyContent => "flex-pack"

/-- The standard name behind a name of 2009 or 2012 without its mark. -/
def standard? (old : String) : Option String :=
  (all.find? fun p => p.names2009.contains old || p.name2012 == old).map name

/-- A property is found under its name. -/
theorem ofName?_name (p : FlexProperty) : ofName? p.name = some p := by
  cases p <;> decide

end FlexProperty

namespace Flexbox

/-! ## Values -/

/-- The value before `!important`, and ` !important` if it is there. -/
def splitImportant (value : String) : String × String :=
  match Chars.find? "!important".toList value.toList with
  | some position => (Text.trimEnd (.ofList (value.toList.take position)), " !important")
  | none => (value, "")

/-- The declarations of 2009 for a direction, if the text is one. -/
def direction2009 (direction : String) : List (String × String) :=
  match direction with
  | "row" => [("box-orient", "horizontal"), ("box-direction", "normal")]
  | "row-reverse" => [("box-orient", "horizontal"), ("box-direction", "reverse")]
  | "column" => [("box-orient", "vertical"), ("box-direction", "normal")]
  | "column-reverse" => [("box-orient", "vertical"), ("box-direction", "reverse")]
  | _ => []

/-- The keyword for an alignment before the final specification. -/
def alignment (value : String) : String :=
  match Text.trim value with
  | "flex-start" => "start"
  | "flex-end" => "end"
  | other => other

/-- The keyword for a distribution of space before the final specification. -/
def distribution (value : String) : String :=
  match Text.trim value with
  | "flex-start" => "start"
  | "flex-end" => "end"
  | "space-between" => "justify"
  | "space-around" => "distribute"
  | other => other

/-- The share of free space that a value of `flex` stands for in 2009. -/
def growth? (value : String) : Option String :=
  match (Text.words value).head? with
  | some "none" => some "0"
  | some "initial" => some "0"
  | some "auto" => some "1"
  | some word => if (Chars.real? word.toList).isSome then some word else none
  | none => none

/-- The group of 2009 for a value of `order`.  Groups are counted from one and
orders from zero. -/
def group? (value : String) : Option String :=
  match Chars.integer? (Text.trim value).toList with
  | some n => if n + 1 < (Nat.pow 2 63 : Int) then some (toString (n + 1)) else none
  | none => none

/-! ## Declarations -/

/-- The unmarked declarations of 2009 that stand for `property: value`. -/
def forms2009 (property : FlexProperty) (value : String) : List (String × String) :=
  match property with
  | .direction => direction2009 (Text.trim value)
  | .flow =>
    match (Text.words value).find? fun word => !(direction2009 word).isEmpty with
    | some word => direction2009 word
    | none => []
  | .grow => [("box-flex", value)]
  | .flex => (growth? value).toList.map fun share => ("box-flex", share)
  | .order => (group? value).toList.map fun group => ("box-ordinal-group", group)
  | .alignItems => [("box-align", alignment value)]
  | .justifyContent =>
    if Text.trim value = "space-around" then [] else [("box-pack", distribution value)]
  | .wrap | .shrink | .basis | .alignSelf | .alignContent => []

/-- The value of 2012 that stands for a value of the property. -/
def value2012 (property : FlexProperty) (value : String) : String :=
  match property with
  | .alignItems | .alignSelf => alignment value
  | .alignContent | .justifyContent => distribution value
  | _ => value

/-- The unmarked declarations that stand for `property: value` in one
specification. -/
def formsOf (era : FlexEra) (property : FlexProperty) (value : String) :
    List (String × String) :=
  match era with
  | .of2009 => forms2009 property value
  | .of2012 => [(property.name2012, value2012 property value)]
  | .final => [(property.name, value)]

/-- The declarations that stand for `property: value` under a vendor mark.  What
marks a declaration as important is kept on every one of them. -/
def forms (property : FlexProperty) (vendor value : String) : List (String × String) :=
  let (value, important) := splitImportant value
  (FlexEra.ofVendor vendor).flatMap fun era =>
    (formsOf era property value).map fun form => (vendor ++ form.1, form.2 ++ important)

/-- Every property name that a vendor mark can lead to. -/
def names (property : FlexProperty) (vendor : String) : List String :=
  (FlexEra.ofVendor vendor).flatMap fun era =>
    match era with
    | .of2009 => property.names2009.map (vendor ++ ·)
    | .of2012 => [vendor ++ property.name2012]
    | .final => [vendor ++ property.name]

/-! ## The keywords of `display` -/

/-- The keyword that stands for `flex` or `inline-flex` in one specification. -/
def keyword (era : FlexEra) (vendor name : String) : String :=
  let inline := Text.startsWith name "inline-"
  match era with
  | .of2009 => vendor ++ (if inline then "inline-box" else "box")
  | .of2012 => vendor ++ (if inline then "inline-flexbox" else "flexbox")
  | .final => vendor ++ name

/-- The values of `display` that stand for a value under a vendor mark. -/
def displays (m : Matcher) (vendor value : String) : List String :=
  (FlexEra.ofVendor vendor).map fun era => m.replace (keyword era vendor) value

/-- Every keyword of `display` that a vendor mark can lead to. -/
def keywords (vendor : String) : List String :=
  (FlexEra.ofVendor vendor).flatMap fun era =>
    ["flex", "inline-flex"].map (keyword era vendor)

/-- A mark that stands for no specification writes nothing. -/
theorem forms_of_eras_nil {property : FlexProperty} {vendor value : String}
    (h : FlexEra.ofVendor vendor = []) : forms property vendor value = [] := by
  simp [forms, h]

end Flexbox
end VendorPrefixing
