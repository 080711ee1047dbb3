/-
# Settings

Settings come in layers: the project file, what the client sends when it starts, and what it sends later.
A layer overrides the layers before it name by name, and a null in it overrides nothing.  Of the
settings three are used for analysis, and each of them counts only if it is a boolean.

* `pickSection`: the part of what a client sends that is meant for the server.
* `mergeLayer`: one more layer.
* `validate`: the three that are used, if they are valid; `dropInvalid`: the same without the invalid ones,
  which are dropped until it succeeds.
* `analysisOf`: the three that are used; `ignoredKeys`: what was dropped for them.
-/
import LuaServer.Json.Value
import LuaServer.Lua.Checker

namespace LuaServer

/-- The name under which a client keeps the settings of the server. -/
def settingsSection : Text := text "lunals"

/-- The part of a value sent by a client that is meant for the server: the section with the server's
name if it is an object, else the whole if that is one. -/
def pickSection : Json → Members
  | .obj ms =>
    match Table.get? settingsSection ms with
    | some (.obj own) => own
    | _ => ms
  | _ => []

/-- Settings after one more layer. -/
def mergeLayer (layer settings : Members) : Members :=
  layer.foldl (fun acc (name, value) =>
    match value with
    | .null => acc
    | v => Table.insert name v acc) settings

/-- A value that is a boolean, and a default otherwise. -/
def boolOr (default : Bool) : Option Json → Bool
  | some (.bool b) => b
  | _ => default

/-- The value of a setting that is a boolean, and a default otherwise. -/
def booleanSetting (name : Text) (default : Bool) (settings : Members) : Bool :=
  boolOr default (Table.get? name settings)

/-- The names of the settings that are used for analysis, in alphabetical order. -/
def analysisNames : List Text := [text "integer", text "strict", text "unused"]

/-- The value is not a boolean. -/
def isNotBoolean : Json → Bool
  | .bool _ => false
  | _ => true

/-- The names of the settings for analysis that are present and not booleans. -/
def invalidNames (settings : Members) : List Text :=
  analysisNames.filter fun name => (Table.get? name settings).any isNotBoolean

/-- The settings for analysis, with the default of each that is not a boolean. -/
def booleanSettings (settings : Members) : Lua.CheckSettings where
  strict := booleanSetting (text "strict") false settings
  integer := booleanSetting (text "integer") false settings
  unused := booleanSetting (text "unused") true settings

/-- The settings for analysis if each of them is absent or a boolean, and otherwise the names of those that
are not. -/
def validate (settings : Members) : Except (List Text) Lua.CheckSettings :=
  match invalidNames settings with
  | [] => .ok (booleanSettings settings)
  | names => .error names

/-- Settings without those of some names. -/
def without (names : List Text) (settings : Members) : Members := settings.filter fun e => e.1 ∉ names

theorem length_without_lt {names : List Text} {settings : Members} {name : Text} (hname : name ∈ names)
    (h : name ∈ Table.keys settings) : (without names settings).length < settings.length := by
  obtain ⟨e, he, rfl⟩ := List.mem_map.mp h
  exact List.length_filter_lt_length_iff_exists.mpr ⟨e, he, by simpa using hname⟩

/-- Validates settings, and where some of them are invalid, drops those and validates again.  The second
part of the result names what was dropped.  If nothing can be dropped, the defaults are used. -/
@[semireducible] def dropInvalid (settings : Members) : Lua.CheckSettings × List Text :=
  match validate settings with
  | .ok a => (a, [])
  | .error names =>
    match _h : names.filter (· ∈ Table.keys settings) with
    | [] => ({}, [])
    | name :: bad =>
      let (a, more) := dropInvalid (without (name :: bad) settings)
      (a, name :: bad ++ more)
termination_by settings.length
decreasing_by
  have hmem : name ∈ names.filter (· ∈ Table.keys settings) := _h ▸ List.mem_cons_self
  exact length_without_lt List.mem_cons_self (of_decide_eq_true (List.mem_filter.mp hmem).2)

/-- The settings that are used for analysis. -/
def analysisOf (settings : Members) : Lua.CheckSettings := (dropInvalid settings).1

/-- The names of the settings that are dropped for analysis. -/
def ignoredKeys (settings : Members) : List Text := (dropInvalid settings).2

end LuaServer
