import Mathlib.Logic.Basic

/-!
# TradingDesk.Utils.Format

**Which formats throw** (`handle_int_type_spec` and `parse_format_string` of `fmt/format.h`, as
`fmt::print` calls them). A format string is text and replacement fields; a field may name how its
argument is presented, and a presentation that the type of the argument does not have is a
`format_error`.

The specifier `n` is one of an older release. It is a presentation of integers only where the
library is compiled with `FMT_DEPRECATED_N_SPECIFIER`, which no file of the repository defines. What
is printed is left out, and so are widths and alignments, which throw nothing.
-/

namespace TradingDesk.Utils

/-- How the library is compiled: whether `FMT_DEPRECATED_N_SPECIFIER` is defined. -/
structure FmtBuild where
  deprecatedNSpecifier : Bool

/-- The library as it is compiled here. -/
def FmtBuild.vendored : FmtBuild := ⟨false⟩

/-- The handlers of an integer. -/
inductive IntPresentation
  | dec
  | hex
  | bin
  | oct
  | num
  | chr

/-- `handle_int_type_spec`; `none` is its `on_error`. -/
def handleIntTypeSpec (build : FmtBuild) : Option Char → Option IntPresentation
  | none | some 'd' => some .dec
  | some 'x' | some 'X' => some .hex
  | some 'b' | some 'B' => some .bin
  | some 'o' => some .oct
  | some 'n' => if build.deprecatedNSpecifier then some .num else none
  | some 'L' => some .num
  | some 'c' => some .chr
  | some _ => none

/-- The types of the arguments. -/
inductive ArgumentType
  | integer
  | string
  /-- A duration has a formatter of its own, which is given no specifier here. -/
  | duration

/-- A specifier that does not throw. -/
def ArgumentType.accepts (build : FmtBuild) (spec : Option Char) : ArgumentType → Bool
  | .integer => (handleIntTypeSpec build spec).isSome
  | .string => decide (spec = none ∨ spec = some 's')
  | .duration => decide (spec = none)

/-- What `parse_format_string` cuts a format string into. -/
inductive Piece
  | text (s : String)
  | field (spec : Option Char)

/-- `fmt::print`: the text of the `format_error`, or `none`. -/
def print (build : FmtBuild) : List Piece → List ArgumentType → Option String
  | [], _ => none
  | .text _ :: pieces, args => print build pieces args
  | .field _ :: _, [] => some "argument not found"
  | .field spec :: pieces, arg :: args =>
    if arg.accepts build spec then print build pieces args else some "invalid type specifier"

variable {build : FmtBuild}

/-- Integers have the presentation `n` exactly if the library is compiled so. -/
@[simp] theorem accepts_integer_n :
    ArgumentType.integer.accepts build (some 'n') = build.deprecatedNSpecifier := by
  cases hn : build.deprecatedNSpecifier <;> simp [ArgumentType.accepts, handleIntTypeSpec, hn]

@[simp] theorem accepts_string_none : ArgumentType.string.accepts build none = true := rfl

@[simp] theorem accepts_duration_none : ArgumentType.duration.accepts build none = true := rfl

end TradingDesk.Utils
