import VendorPrefixing.Feature.Basic

/-!
# The built-in feature table

Which versions of the built-in browsers need a vendor mark, feature by feature.
Plans and reports list features in the order of this table.
-/

namespace VendorPrefixing
namespace Feature

/-! ## Rows -/

/-- The versions from `first` to `last`. -/
def between (browser : String) (first last : Version) : Need where
  browser := browser
  first := first
  last := some last

/-- The versions from `first` on, including the announced ones. -/
def since (browser : String) (first : Version) : Need where
  browser := browser
  first := first
  last := none

/-- A property. -/
def property (name : String) (needs : List Need) : Feature where
  name := name
  kind := .property
  needs := needs
  properties := []
  values := []
  inTransitions := false

/-- A property that is also marked inside lists of transitions. -/
def transitional (name : String) (needs : List Need) : Feature :=
  { property name needs with inTransitions := true }

/-- A value with the properties it stands in and the names it goes by. -/
def value (name : String) (needs : List Need) (properties values : List String) : Feature where
  name := name
  kind := .value
  needs := needs
  properties := properties
  values := values
  inTransitions := false

/-- An at-rule. -/
def atRule (name : String) (needs : List Need) : Feature :=
  { property name needs with kind := .atRule }

/-! ## Needs -/

/-- The versions that need the vendor mark for transitions. -/
def transitionNeeds : List Need :=
  [between "chrome" ⟨4, 0⟩ ⟨25, 0⟩, between "safari" ⟨3, 1⟩ ⟨6, 0⟩, between "ios" ⟨3, 2⟩ ⟨6, 0⟩,
    between "android" ⟨2, 1⟩ ⟨4, 3⟩, between "bb" ⟨7, 0⟩ ⟨7, 0⟩, between "ff" ⟨4, 0⟩ ⟨15, 0⟩,
    between "opera" ⟨10, 5⟩ ⟨12, 0⟩]

/-- The versions that need the vendor mark for transforms in the plane. -/
def planeNeeds : List Need :=
  [since "chrome" ⟨4, 0⟩, since "safari" ⟨3, 1⟩, since "ios" ⟨3, 2⟩, since "android" ⟨2, 1⟩,
    since "bb" ⟨7, 0⟩, since "opera" ⟨15, 0⟩, between "ff" ⟨3, 5⟩ ⟨15, 0⟩,
    between "ie" ⟨9, 0⟩ ⟨9, 0⟩, between "opera" ⟨10, 5⟩ ⟨12, 0⟩]

/-- The versions that need the vendor mark for transforms in space. -/
def spaceNeeds : List Need :=
  [since "chrome" ⟨12, 0⟩, since "safari" ⟨4, 0⟩, since "ios" ⟨3, 2⟩, since "android" ⟨3, 0⟩,
    since "bb" ⟨7, 0⟩, since "opera" ⟨15, 0⟩, between "ff" ⟨10, 0⟩ ⟨15, 0⟩]

/-- The versions that need the vendor mark for animations. -/
def animationNeeds : List Need :=
  [since "chrome" ⟨4, 0⟩, since "safari" ⟨4, 0⟩, since "ios" ⟨3, 2⟩, since "android" ⟨2, 1⟩,
    since "bb" ⟨7, 0⟩, since "opera" ⟨15, 0⟩, between "ff" ⟨5, 0⟩ ⟨15, 0⟩,
    between "opera" ⟨12, 0⟩ ⟨12, 0⟩]

/-- The versions that need the vendor mark for rounded corners. -/
def borderRadiusNeeds : List Need :=
  [between "chrome" ⟨4, 0⟩ ⟨4, 0⟩, between "safari" ⟨3, 1⟩ ⟨4, 0⟩, between "ios" ⟨3, 2⟩ ⟨3, 2⟩,
    between "android" ⟨2, 1⟩ ⟨2, 1⟩, between "ff" ⟨2, 0⟩ ⟨3, 6⟩]

/-- The versions that need the vendor mark for box shadows. -/
def boxShadowNeeds : List Need :=
  [between "chrome" ⟨4, 0⟩ ⟨9, 0⟩, between "safari" ⟨3, 1⟩ ⟨5, 0⟩, between "ios" ⟨3, 2⟩ ⟨4, 2⟩,
    between "android" ⟨2, 1⟩ ⟨3, 0⟩, between "bb" ⟨7, 0⟩ ⟨7, 0⟩, between "ff" ⟨3, 5⟩ ⟨3, 6⟩]

/-- The versions that need the vendor mark for box sizing. -/
def boxSizingNeeds : List Need :=
  [between "chrome" ⟨4, 0⟩ ⟨9, 0⟩, between "safari" ⟨3, 1⟩ ⟨5, 0⟩, between "ios" ⟨3, 2⟩ ⟨4, 2⟩,
    between "android" ⟨2, 1⟩ ⟨3, 0⟩, between "bb" ⟨7, 0⟩ ⟨7, 0⟩, since "ff" ⟨2, 0⟩]

/-- The versions that need the vendor mark for gradients. -/
def gradientNeeds : List Need :=
  [between "chrome" ⟨10, 0⟩ ⟨25, 0⟩, between "safari" ⟨5, 1⟩ ⟨6, 0⟩, between "ios" ⟨5, 0⟩ ⟨6, 0⟩,
    between "android" ⟨4, 0⟩ ⟨4, 3⟩, between "bb" ⟨10, 0⟩ ⟨10, 0⟩, between "ff" ⟨3, 6⟩ ⟨15, 0⟩,
    between "opera" ⟨11, 1⟩ ⟨12, 0⟩]

/-- The versions that need the vendor mark for flexible boxes. -/
def flexboxNeeds : List Need :=
  [between "chrome" ⟨4, 0⟩ ⟨28, 0⟩, since "safari" ⟨3, 1⟩, since "ios" ⟨3, 2⟩,
    since "android" ⟨2, 1⟩, between "bb" ⟨7, 0⟩ ⟨10, 0⟩, between "opera" ⟨15, 0⟩ ⟨16, 0⟩,
    between "ff" ⟨2, 0⟩ ⟨21, 0⟩, between "ie" ⟨10, 0⟩ ⟨10, 0⟩]

/-- The versions that need the vendor mark for filters. -/
def filterNeeds : List Need :=
  [since "chrome" ⟨18, 0⟩, since "safari" ⟨6, 0⟩, since "ios" ⟨6, 0⟩, since "android" ⟨4, 4⟩,
    between "bb" ⟨10, 0⟩ ⟨10, 0⟩, since "opera" ⟨15, 0⟩, between "ie" ⟨8, 0⟩ ⟨9, 0⟩]

/-- The versions that need the vendor mark for computed lengths. -/
def calcNeeds : List Need :=
  [between "chrome" ⟨19, 0⟩ ⟨25, 0⟩, between "safari" ⟨6, 0⟩ ⟨6, 0⟩, between "ios" ⟨6, 0⟩ ⟨6, 0⟩,
    between "ff" ⟨4, 0⟩ ⟨15, 0⟩]

/-- The versions that need the vendor mark for control of text selection. -/
def userSelectNeeds : List Need :=
  [since "chrome" ⟨6, 0⟩, since "safari" ⟨3, 1⟩, since "ios" ⟨3, 2⟩, since "android" ⟨2, 1⟩,
    since "bb" ⟨7, 0⟩, since "opera" ⟨15, 0⟩, since "ff" ⟨2, 0⟩, since "ie" ⟨10, 0⟩]

/-- The versions that need the vendor mark for hyphenation. -/
def hyphensNeeds : List Need :=
  [since "safari" ⟨5, 1⟩, since "ios" ⟨4, 2⟩, since "ff" ⟨6, 0⟩, since "ie" ⟨10, 0⟩]

/-- The versions that need the vendor mark for columns. -/
def columnNeeds : List Need :=
  [since "chrome" ⟨4, 0⟩, since "safari" ⟨3, 1⟩, since "ios" ⟨3, 2⟩, since "android" ⟨2, 1⟩,
    since "bb" ⟨7, 0⟩, since "opera" ⟨15, 0⟩, since "ff" ⟨2, 0⟩]

/-- The versions that need the vendor mark for native appearance. -/
def appearanceNeeds : List Need :=
  [since "chrome" ⟨4, 0⟩, since "safari" ⟨3, 1⟩, since "ios" ⟨3, 2⟩, since "android" ⟨2, 1⟩,
    since "bb" ⟨7, 0⟩, since "opera" ⟨15, 0⟩, since "ff" ⟨2, 0⟩]

/-- The versions that need the vendor mark for border images. -/
def borderImageNeeds : List Need :=
  [between "chrome" ⟨4, 0⟩ ⟨15, 0⟩, between "safari" ⟨3, 1⟩ ⟨5, 1⟩, between "ios" ⟨3, 2⟩ ⟨5, 0⟩,
    between "android" ⟨2, 1⟩ ⟨4, 3⟩, between "ff" ⟨3, 5⟩ ⟨14, 0⟩, between "opera" ⟨11, 0⟩ ⟨12, 1⟩]

/-- The versions that need the vendor mark for background geometry. -/
def backgroundSizeNeeds : List Need :=
  [between "chrome" ⟨4, 0⟩ ⟨4, 0⟩, between "safari" ⟨3, 1⟩ ⟨4, 0⟩, between "ios" ⟨3, 2⟩ ⟨4, 0⟩,
    between "android" ⟨2, 1⟩ ⟨2, 3⟩, between "ff" ⟨3, 6⟩ ⟨3, 6⟩, between "opera" ⟨10, 0⟩ ⟨10, 5⟩]

/-- The versions that need the vendor mark for tab width. -/
def tabSizeNeeds : List Need :=
  [since "ff" ⟨4, 0⟩, between "opera" ⟨10, 6⟩ ⟨12, 1⟩]

/-- The versions that need the vendor mark for font features. -/
def fontFeatureNeeds : List Need :=
  [since "chrome" ⟨16, 0⟩, since "android" ⟨4, 4⟩, since "opera" ⟨15, 0⟩, since "ff" ⟨4, 0⟩]

/-- The versions that need the vendor mark for the parts of text decoration. -/
def textDecorationNeeds : List Need :=
  [since "ff" ⟨6, 0⟩]

/-- The versions that need the vendor mark for text size adjustment. -/
def textSizeAdjustNeeds : List Need :=
  [since "ios" ⟨5, 0⟩]

/-- The versions that need the vendor mark for zoom cursors. -/
def zoomCursorNeeds : List Need :=
  [since "chrome" ⟨4, 0⟩, since "safari" ⟨3, 1⟩, between "ff" ⟨2, 0⟩ ⟨23, 0⟩]

/-- The properties that gradients stand in. -/
def gradientProperties : List String :=
  ["background", "background-image", "border-image", "list-style",
    "list-style-image", "content", "mask-image"]

/-! ## Features -/

/-- Transitions. -/
def transitions : List Feature :=
  [property "transition" transitionNeeds,
    property "transition-property" transitionNeeds,
    property "transition-duration" transitionNeeds,
    property "transition-delay" transitionNeeds,
    property "transition-timing-function" transitionNeeds]

/-- Transforms in the plane and in space. -/
def transforms : List Feature :=
  [transitional "transform" planeNeeds,
    transitional "transform-origin" planeNeeds,
    transitional "perspective" spaceNeeds,
    transitional "perspective-origin" spaceNeeds,
    property "transform-style" spaceNeeds,
    property "backface-visibility" spaceNeeds]

/-- Animations and their keyframes. -/
def animations : List Feature :=
  [property "animation" animationNeeds,
    property "animation-name" animationNeeds,
    property "animation-duration" animationNeeds,
    property "animation-delay" animationNeeds,
    property "animation-direction" animationNeeds,
    property "animation-fill-mode" animationNeeds,
    property "animation-iteration-count" animationNeeds,
    property "animation-play-state" animationNeeds,
    property "animation-timing-function" animationNeeds,
    atRule "@keyframes" animationNeeds]

/-- Borders, corners and boxes. -/
def boxes : List Feature :=
  [transitional "border-radius" borderRadiusNeeds,
    transitional "border-top-left-radius" borderRadiusNeeds,
    transitional "border-top-right-radius" borderRadiusNeeds,
    transitional "border-bottom-right-radius" borderRadiusNeeds,
    transitional "border-bottom-left-radius" borderRadiusNeeds,
    transitional "box-shadow" boxShadowNeeds,
    property "box-sizing" boxSizingNeeds,
    property "border-image" borderImageNeeds,
    property "background-size" backgroundSizeNeeds,
    property "background-clip" backgroundSizeNeeds,
    property "background-origin" backgroundSizeNeeds]

/-- Gradients. -/
def gradients : List Feature :=
  [value "linear-gradient" gradientNeeds gradientProperties [],
    value "repeating-linear-gradient" gradientNeeds gradientProperties [],
    value "radial-gradient" gradientNeeds gradientProperties [],
    value "repeating-radial-gradient" gradientNeeds gradientProperties []]

/-- Flexible boxes. -/
def flexibleBoxes : List Feature :=
  [value "display-flex" flexboxNeeds ["display"] ["flex", "inline-flex"],
    property "flex" flexboxNeeds,
    property "flex-direction" flexboxNeeds,
    property "flex-wrap" flexboxNeeds,
    property "flex-flow" flexboxNeeds,
    property "flex-grow" flexboxNeeds,
    property "flex-shrink" flexboxNeeds,
    property "flex-basis" flexboxNeeds,
    property "order" flexboxNeeds,
    property "align-items" flexboxNeeds,
    property "align-self" flexboxNeeds,
    property "align-content" flexboxNeeds,
    property "justify-content" flexboxNeeds]

/-- Filters. -/
def filters : List Feature :=
  [transitional "filter" filterNeeds]

/-- Functions and keywords inside values. -/
def keywords : List Feature :=
  [value "calc" calcNeeds ["*"] [],
    value "zoom-in" zoomCursorNeeds ["cursor"] [],
    value "zoom-out" zoomCursorNeeds ["cursor"] []]

/-- Interaction and text. -/
def text : List Feature :=
  [property "user-select" userSelectNeeds,
    property "appearance" appearanceNeeds,
    property "hyphens" hyphensNeeds,
    property "tab-size" tabSizeNeeds,
    property "font-feature-settings" fontFeatureNeeds,
    property "font-variant-ligatures" fontFeatureNeeds,
    property "text-decoration-line" textDecorationNeeds,
    property "text-decoration-style" textDecorationNeeds,
    transitional "text-decoration-color" textDecorationNeeds,
    property "text-size-adjust" textSizeAdjustNeeds]

/-- Columns. -/
def columns : List Feature :=
  [transitional "columns" columnNeeds,
    transitional "column-width" columnNeeds,
    transitional "column-gap" columnNeeds,
    transitional "column-rule" columnNeeds,
    transitional "column-rule-color" columnNeeds,
    transitional "column-rule-width" columnNeeds,
    property "column-rule-style" columnNeeds,
    transitional "column-count" columnNeeds,
    property "column-span" columnNeeds,
    property "column-fill" columnNeeds]

/-- The built-in features, in table order. -/
def builtIn : List Feature :=
  transitions ++ transforms ++ animations ++ boxes ++ gradients ++ flexibleBoxes ++
    filters ++ keywords ++ text ++ columns

end Feature
end VendorPrefixing
