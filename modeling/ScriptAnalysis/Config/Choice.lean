/-!
# Choices

Values that are written as one word out of a fixed set. The words of a choice are distinct, also when
upper and lower case ASCII letters count as the same, and a written word chooses the value whose word
it is up to the case of such letters.
-/

namespace ScriptAnalysis.Config

/-- A type whose values have fixed words. -/
class Choice (α : Type) where
  /-- All values, in the order in which their words are listed. -/
  all : List α
  /-- The word of a value. -/
  spelling : α → String

/-- The characters of a word with ASCII letters in lower case. -/
def folded (word : String) : List Char := word.toList.map Char.toLower

namespace Choice

/-- The value that a word chooses. -/
def ofName? (α : Type) [Choice α] (word : String) : Option α :=
  (all (α := α)).find? fun a => folded (spelling a) == folded word

/-- The words of a choice. -/
def names (α : Type) [Choice α] : List String := (all (α := α)).map spelling

end Choice

/-- The language version. -/
inductive Target where
  /-- `es3`. -/
  | es3
  /-- `es5`. -/
  | es5
  /-- `es2015`. -/
  | es2015
  /-- `es2016`. -/
  | es2016
  /-- `es2017`. -/
  | es2017
  /-- `es2018`. -/
  | es2018
  /-- `es2019`. -/
  | es2019
  /-- `es2020`. -/
  | es2020
  /-- `es2021`. -/
  | es2021
  /-- `es2022`. -/
  | es2022
  /-- `esnext`. -/
  | esNext
  deriving DecidableEq, Repr

instance : Choice Target where
  all := [.es3, .es5, .es2015, .es2016, .es2017, .es2018, .es2019, .es2020, .es2021, .es2022,
    .esNext]
  spelling
    | .es3 => "es3"
    | .es5 => "es5"
    | .es2015 => "es2015"
    | .es2016 => "es2016"
    | .es2017 => "es2017"
    | .es2018 => "es2018"
    | .es2019 => "es2019"
    | .es2020 => "es2020"
    | .es2021 => "es2021"
    | .es2022 => "es2022"
    | .esNext => "esnext"

/-- The module system of generated code. -/
inductive ModuleKind where
  /-- `none`. -/
  | none
  /-- `commonjs`. -/
  | commonJs
  /-- `amd`. -/
  | amd
  /-- `umd`. -/
  | umd
  /-- `system`. -/
  | system
  /-- `es2015`. -/
  | es2015
  /-- `es2020`. -/
  | es2020
  /-- `es2022`. -/
  | es2022
  /-- `esnext`. -/
  | esNext
  /-- `node16`. -/
  | node16
  /-- `nodenext`. -/
  | nodeNext
  deriving DecidableEq, Repr

instance : Choice ModuleKind where
  all := [.none, .commonJs, .amd, .umd, .system, .es2015, .es2020, .es2022, .esNext, .node16,
    .nodeNext]
  spelling
    | .none => "none"
    | .commonJs => "commonjs"
    | .amd => "amd"
    | .umd => "umd"
    | .system => "system"
    | .es2015 => "es2015"
    | .es2020 => "es2020"
    | .es2022 => "es2022"
    | .esNext => "esnext"
    | .node16 => "node16"
    | .nodeNext => "nodenext"

/-- A set of names that the environment of a program brings along. -/
inductive Lib where
  /-- `es5`. -/
  | es5
  /-- `es2015`. -/
  | es2015
  /-- `es2016`. -/
  | es2016
  /-- `es2017`. -/
  | es2017
  /-- `es2018`. -/
  | es2018
  /-- `es2019`. -/
  | es2019
  /-- `es2020`. -/
  | es2020
  /-- `es2021`. -/
  | es2021
  /-- `es2022`. -/
  | es2022
  /-- `esnext`. -/
  | esNext
  /-- `dom`. -/
  | dom
  /-- `dom.iterable`. -/
  | domIterable
  /-- `webworker`. -/
  | webWorker
  /-- `scripthost`. -/
  | scriptHost
  deriving DecidableEq, Repr

instance : Choice Lib where
  all := [.es5, .es2015, .es2016, .es2017, .es2018, .es2019, .es2020, .es2021, .es2022, .esNext,
    .dom, .domIterable, .webWorker, .scriptHost]
  spelling
    | .es5 => "es5"
    | .es2015 => "es2015"
    | .es2016 => "es2016"
    | .es2017 => "es2017"
    | .es2018 => "es2018"
    | .es2019 => "es2019"
    | .es2020 => "es2020"
    | .es2021 => "es2021"
    | .es2022 => "es2022"
    | .esNext => "esnext"
    | .dom => "dom"
    | .domIterable => "dom.iterable"
    | .webWorker => "webworker"
    | .scriptHost => "scripthost"

/-- Whether the names belong to the language and not to the host a program runs in. -/
def Lib.isLanguage : Lib → Bool
  | .dom | .domIterable | .webWorker | .scriptHost => false
  | _ => true

/-- How markup in programs is treated. -/
inductive Jsx where
  /-- `preserve`. -/
  | preserve
  /-- `react`. -/
  | react
  /-- `react-native`. -/
  | reactNative
  /-- `react-jsx`. -/
  | reactJsx
  /-- `react-jsxdev`. -/
  | reactJsxDev
  deriving DecidableEq, Repr

instance : Choice Jsx where
  all := [.preserve, .react, .reactNative, .reactJsx, .reactJsxDev]
  spelling
    | .preserve => "preserve"
    | .react => "react"
    | .reactNative => "react-native"
    | .reactJsx => "react-jsx"
    | .reactJsxDev => "react-jsxdev"

/-- A choice whose words are distinct up to case and whose list is complete: every word chooses the
value it belongs to. -/
theorem Choice.ofName?_eq_some_iff {α : Type} [Choice α] [DecidableEq α]
    (complete : ∀ a : α, ofName? α (spelling a) = some a) (word : String) (a : α) :
    ofName? α word = some a ↔ folded (spelling a) = folded word := by
  constructor
  · intro h
    have := List.find?_some h
    exact beq_iff_eq.1 this
  · intro h
    have := complete a
    unfold ofName? at this ⊢
    rwa [h] at this

theorem Target.ofName?_eq_some_iff (word : String) (a : Target) :
    Choice.ofName? Target word = some a ↔ folded (Choice.spelling a) = folded word :=
  Choice.ofName?_eq_some_iff (fun a => by cases a <;> decide +kernel) word a

theorem ModuleKind.ofName?_eq_some_iff (word : String) (a : ModuleKind) :
    Choice.ofName? ModuleKind word = some a ↔ folded (Choice.spelling a) = folded word :=
  Choice.ofName?_eq_some_iff (fun a => by cases a <;> decide +kernel) word a

theorem Lib.ofName?_eq_some_iff (word : String) (a : Lib) :
    Choice.ofName? Lib word = some a ↔ folded (Choice.spelling a) = folded word :=
  Choice.ofName?_eq_some_iff (fun a => by cases a <;> decide +kernel) word a

theorem Jsx.ofName?_eq_some_iff (word : String) (a : Jsx) :
    Choice.ofName? Jsx word = some a ↔ folded (Choice.spelling a) = folded word :=
  Choice.ofName?_eq_some_iff (fun a => by cases a <;> decide +kernel) word a

end ScriptAnalysis.Config
