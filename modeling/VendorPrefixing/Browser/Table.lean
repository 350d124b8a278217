import VendorPrefixing.Browser.Basic

/-!
# The built-in browser table

Release history and usage share of the browsers that are known without further
data.  A row of `released` is a version and its share of usage in percent.
-/

namespace VendorPrefixing
namespace Browser

/-- The release history of Chrome. -/
def chrome : Browser where
  name := "chrome"
  title := "Chrome"
  aliases := []
  vendor := "-webkit-"
  changes := []
  released :=
    [⟨⟨31, 0⟩, 0.51⟩, ⟨⟨30, 0⟩, 14.62⟩, ⟨⟨29, 0⟩, 9.84⟩, ⟨⟨28, 0⟩, 1.22⟩, ⟨⟨27, 0⟩, 0.61⟩,
      ⟨⟨26, 0⟩, 0.33⟩, ⟨⟨25, 0⟩, 0.24⟩, ⟨⟨24, 0⟩, 0.19⟩, ⟨⟨23, 0⟩, 0.16⟩, ⟨⟨22, 0⟩, 0.21⟩,
      ⟨⟨21, 0⟩, 0.23⟩, ⟨⟨20, 0⟩, 0.09⟩, ⟨⟨19, 0⟩, 0.07⟩, ⟨⟨18, 0⟩, 0.08⟩, ⟨⟨17, 0⟩, 0.06⟩,
      ⟨⟨16, 0⟩, 0.05⟩, ⟨⟨15, 0⟩, 0.04⟩, ⟨⟨14, 0⟩, 0.04⟩, ⟨⟨13, 0⟩, 0.03⟩, ⟨⟨12, 0⟩, 0.03⟩,
      ⟨⟨11, 0⟩, 0.05⟩, ⟨⟨10, 0⟩, 0.03⟩, ⟨⟨9, 0⟩, 0.02⟩, ⟨⟨8, 0⟩, 0.02⟩, ⟨⟨7, 0⟩, 0.02⟩,
      ⟨⟨6, 0⟩, 0.01⟩, ⟨⟨5, 0⟩, 0.01⟩, ⟨⟨4, 0⟩, 0.01⟩]
  future := [⟨33, 0⟩, ⟨32, 0⟩]
  onlyWhenNamed := false

/-- The release history of Firefox. -/
def firefox : Browser where
  name := "ff"
  title := "Firefox"
  aliases := ["firefox", "fx"]
  vendor := "-moz-"
  changes := []
  released :=
    [⟨⟨25, 0⟩, 0.42⟩, ⟨⟨24, 0⟩, 8.37⟩, ⟨⟨23, 0⟩, 3.14⟩, ⟨⟨22, 0⟩, 0.61⟩, ⟨⟨21, 0⟩, 0.42⟩,
      ⟨⟨20, 0⟩, 0.33⟩, ⟨⟨19, 0⟩, 0.25⟩, ⟨⟨18, 0⟩, 0.27⟩, ⟨⟨17, 0⟩, 0.29⟩, ⟨⟨16, 0⟩, 0.26⟩,
      ⟨⟨15, 0⟩, 0.21⟩, ⟨⟨14, 0⟩, 0.14⟩, ⟨⟨13, 0⟩, 0.13⟩, ⟨⟨12, 0⟩, 0.18⟩, ⟨⟨11, 0⟩, 0.12⟩,
      ⟨⟨10, 0⟩, 0.16⟩, ⟨⟨9, 0⟩, 0.09⟩, ⟨⟨8, 0⟩, 0.11⟩, ⟨⟨7, 0⟩, 0.07⟩, ⟨⟨6, 0⟩, 0.08⟩,
      ⟨⟨5, 0⟩, 0.08⟩, ⟨⟨4, 0⟩, 0.11⟩, ⟨⟨3, 6⟩, 0.27⟩, ⟨⟨3, 5⟩, 0.06⟩, ⟨⟨3, 0⟩, 0.09⟩,
      ⟨⟨2, 0⟩, 0.01⟩]
  future := [⟨27, 0⟩, ⟨26, 0⟩]
  onlyWhenNamed := false

/-- The release history of IE. -/
def explorer : Browser where
  name := "ie"
  title := "IE"
  aliases := ["explorer"]
  vendor := "-ms-"
  changes := []
  released :=
    [⟨⟨11, 0⟩, 1.03⟩, ⟨⟨10, 0⟩, 7.52⟩, ⟨⟨9, 0⟩, 5.41⟩, ⟨⟨8, 0⟩, 6.83⟩, ⟨⟨7, 0⟩, 0.52⟩,
      ⟨⟨6, 0⟩, 0.31⟩, ⟨⟨5, 5⟩, 0.01⟩]
  future := []
  onlyWhenNamed := false

/-- The release history of Safari. -/
def safari : Browser where
  name := "safari"
  title := "Safari"
  aliases := []
  vendor := "-webkit-"
  changes := []
  released :=
    [⟨⟨7, 0⟩, 0.63⟩, ⟨⟨6, 1⟩, 1.12⟩, ⟨⟨6, 0⟩, 1.21⟩, ⟨⟨5, 1⟩, 1.34⟩, ⟨⟨5, 0⟩, 0.31⟩,
      ⟨⟨4, 0⟩, 0.12⟩, ⟨⟨3, 2⟩, 0.01⟩, ⟨⟨3, 1⟩, 0.01⟩]
  future := []
  onlyWhenNamed := false

/-- The release history of Opera. -/
def opera : Browser where
  name := "opera"
  title := "Opera"
  aliases := []
  vendor := "-o-"
  changes := [(⟨15, 0⟩, "-webkit-")]
  released :=
    [⟨⟨17, 0⟩, 0.21⟩, ⟨⟨16, 0⟩, 0.38⟩, ⟨⟨15, 0⟩, 0.12⟩, ⟨⟨12, 1⟩, 0.79⟩, ⟨⟨12, 0⟩, 0.05⟩,
      ⟨⟨11, 6⟩, 0.03⟩, ⟨⟨11, 5⟩, 0.02⟩, ⟨⟨11, 1⟩, 0.01⟩, ⟨⟨11, 0⟩, 0.01⟩, ⟨⟨10, 6⟩, 0.01⟩,
      ⟨⟨10, 5⟩, 0.01⟩, ⟨⟨10, 0⟩, 0.01⟩, ⟨⟨9, 5⟩, 0.01⟩, ⟨⟨9, 0⟩, 0.01⟩]
  future := [⟨18, 0⟩]
  onlyWhenNamed := false

/-- The release history of iOS Safari. -/
def ios : Browser where
  name := "ios"
  title := "iOS Safari"
  aliases := ["ios_saf"]
  vendor := "-webkit-"
  changes := []
  released :=
    [⟨⟨7, 0⟩, 2.24⟩, ⟨⟨6, 0⟩, 3.31⟩, ⟨⟨5, 0⟩, 0.23⟩, ⟨⟨4, 2⟩, 0.09⟩, ⟨⟨4, 0⟩, 0.01⟩,
      ⟨⟨3, 2⟩, 0.01⟩]
  future := []
  onlyWhenNamed := false

/-- The release history of Android. -/
def android : Browser where
  name := "android"
  title := "Android"
  aliases := []
  vendor := "-webkit-"
  changes := []
  released :=
    [⟨⟨4, 4⟩, 0.02⟩, ⟨⟨4, 3⟩, 0.31⟩, ⟨⟨4, 2⟩, 0.93⟩, ⟨⟨4, 1⟩, 2.18⟩, ⟨⟨4, 0⟩, 0.82⟩,
      ⟨⟨3, 0⟩, 0.01⟩, ⟨⟨2, 3⟩, 2.97⟩, ⟨⟨2, 2⟩, 0.31⟩, ⟨⟨2, 1⟩, 0.05⟩]
  future := []
  onlyWhenNamed := true

/-- The release history of Blackberry. -/
def blackberry : Browser where
  name := "bb"
  title := "Blackberry"
  aliases := ["blackberry"]
  vendor := "-webkit-"
  changes := []
  released :=
    [⟨⟨10, 0⟩, 0.09⟩, ⟨⟨7, 0⟩, 0.17⟩]
  future := []
  onlyWhenNamed := true

/-- The built-in browsers, in the order in which reports list them. -/
def builtIn : BrowserTable :=
  [chrome, firefox, explorer, safari, opera, ios, android, blackberry]

end Browser
end VendorPrefixing
