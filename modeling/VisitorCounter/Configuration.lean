import VisitorCounter.Handler

/-!
# The configuration

The stack of the Lambda sets three variables, and `Config::from_env` reads them; the
names of the counters are in one of them, with commas between them.  What can be
configured at all can be configured by those three variables.

## Main Definitions

* `Config.variables`: the variables of a configuration
* `Config.Settable`: there is a name that is allowed, and no such name has a comma

## Main Results

* `splitCommas_eq_iff`: which names a text lists
* `config_round_trip`: a configuration is read back from its variables
-/

namespace VisitorCounter

/-! ### Names with commas between them -/

/-- No piece of a list that was split has the separator. -/
theorem notMem_of_mem_splitOn {α : Type*} [DecidableEq α] {a : α} {l : List α} :
    ∀ piece ∈ l.splitOn a, a ∉ piece := by
  induction l with
  | nil => simp
  | cons b l ih =>
      intro piece hpiece
      rw [List.splitOn_cons_eq_if_modifyHead] at hpiece
      split at hpiece
      · rcases List.mem_cons.mp hpiece with rfl | hold
        · exact List.not_mem_nil
        · exact ih piece hold
      · rename_i hne
        obtain ⟨first, rest, hsplit⟩ := List.exists_cons_of_ne_nil (List.splitOn_ne_nil a l)
        rw [hsplit] at ih hpiece
        rcases List.mem_cons.mp hpiece with rfl | hold
        · have hfirst := ih first List.mem_cons_self
          refine fun hmem => (List.mem_cons.mp hmem).elim (fun heq => hne ?_) hfirst
          exact beq_iff_eq.mpr heq.symm
        · exact ih piece (List.mem_cons_of_mem _ hold)

/-- **Which names a text lists**: at least one, none with a comma, and with commas
between them they are the text. -/
theorem splitCommas_eq_iff {s : String} {names : List String} :
    splitCommas s = names ↔
      names ≠ [] ∧ (∀ name ∈ names, ',' ∉ name.toList) ∧ ",".intercalate names = s := by
  constructor
  · rintro rfl
    refine ⟨by simp [splitCommas], fun name hname => ?_, ?_⟩
    · obtain ⟨piece, hpiece, rfl⟩ := List.mem_map.mp hname
      rw [String.toList_ofList]
      exact notMem_of_mem_splitOn piece hpiece
    · apply String.toList_injective
      rw [String.toList_intercalate, splitCommas, List.map_map]
      simp [Function.comp_def]
  · rintro ⟨hne, hcommas, rfl⟩
    have hsplit : ([','].intercalate (names.map String.toList)).splitOn ',' =
        names.map String.toList := by
      refine List.splitOn_intercalate ',' (fun piece hpiece => ?_) (by simpa using hne)
      obtain ⟨name, hname, rfl⟩ := List.mem_map.mp hpiece
      exact hcommas name hname
    rw [splitCommas, String.toList_intercalate]
    show (([','].intercalate (names.map String.toList)).splitOn ',').map String.ofList = names
    rw [hsplit, List.map_map]
    simp [Function.comp_def]

/-! ### The variables -/

/-- The variables of a configuration. -/
def Config.variables (config : Config) : String → Option String
  | "DGVC_TABLE_NAME" => some config.tableName
  | "DGVC_MIN_WIDTH" => some (u64ToString config.minWidth)
  | "DGVC_ALLOWED_NAMES" => some (",".intercalate config.allowedNames)
  | _ => none

/-- There is a name that is allowed, and no such name has a comma. -/
def Config.Settable (config : Config) : Prop :=
  config.allowedNames ≠ [] ∧ ∀ name ∈ config.allowedNames, ',' ∉ name.toList

variable {env : String → Option String} {config : Config}

/-- What is read from the variables: only the minimum width may fail to be read. -/
theorem fromEnv_eq (env : String → Option String) :
    Config.fromEnv env =
      match ((env "DGVC_MIN_WIDTH").map parseU64).getD (some 5) with
      | some minWidth => .ok {
          tableName := (env "DGVC_TABLE_NAME").getD "garden-hit-counter"
          minWidth := minWidth
          allowedNames := ((env "DGVC_ALLOWED_NAMES").map splitCommas).getD ["default"] }
      | none => .error ⟨"called `Result::unwrap()` on an `Err` value"⟩ := by
  unfold Config.fromEnv
  cases env "DGVC_MIN_WIDTH" with
  | none => rfl
  | some n =>
      rw [Option.map_some, Option.getD_some]
      dsimp only
      cases parseU64 n <;> rfl

theorem fromEnv_eq_ok_iff : Config.fromEnv env = .ok config ↔
    ((env "DGVC_TABLE_NAME").getD "garden-hit-counter" = config.tableName ∧
      ((env "DGVC_ALLOWED_NAMES").map splitCommas).getD ["default"] = config.allowedNames) ∧
      ((env "DGVC_MIN_WIDTH").map parseU64).getD (some 5) = some config.minWidth := by
  rw [fromEnv_eq]
  cases ((env "DGVC_MIN_WIDTH").map parseU64).getD (some 5) with
  | none => simp
  | some minWidth =>
      cases config
      simp only [Except.ok.injEq, Config.mk.injEq, Option.some.injEq]
      tauto

theorem fromEnv_eq_error_iff : (∃ panic, Config.fromEnv env = .error panic) ↔
    ∃ n, env "DGVC_MIN_WIDTH" = some n ∧ parseU64 n = none := by
  rw [fromEnv_eq]
  cases env "DGVC_MIN_WIDTH" with
  | none => simp
  | some n =>
      rw [Option.map_some, Option.getD_some]
      cases hparse : parseU64 n <;> simp [hparse]

/-- **A configuration is read back from its variables.**  The configurations that can be
read from any variables at all are those with a name that is allowed and no comma in such
a name, and each of them is read from its own variables.  Reading panics exactly when
there is a minimum width that is not a number. -/
theorem config_round_trip (config : Config) :
    (Config.fromEnv config.variables = .ok config ↔ config.Settable) ∧
      ((∃ env, Config.fromEnv env = .ok config) ↔ config.Settable) ∧
      ∀ env, (∃ panic, Config.fromEnv env = .error panic) ↔
        ∃ n, env "DGVC_MIN_WIDTH" = some n ∧ parseU64 n = none := by
  have hsettable : ∀ env, Config.fromEnv env = .ok config → config.Settable := by
    intro env h
    obtain ⟨⟨-, hnames⟩, -⟩ := fromEnv_eq_ok_iff.mp h
    obtain ⟨s, hs⟩ : ∃ s, splitCommas s = config.allowedNames := by
      rw [← hnames]
      cases env "DGVC_ALLOWED_NAMES" with
      | none => exact ⟨"default", rfl⟩
      | some s => exact ⟨s, rfl⟩
    obtain ⟨hne, hcommas, -⟩ := splitCommas_eq_iff.mp hs
    exact ⟨hne, hcommas⟩
  have hread : config.Settable → Config.fromEnv config.variables = .ok config := fun h =>
    fromEnv_eq_ok_iff.mpr
      ⟨⟨rfl, splitCommas_eq_iff.mpr ⟨h.1, h.2, rfl⟩⟩, parseU64_u64ToString _⟩
  exact ⟨⟨hsettable _, hread⟩, ⟨fun ⟨env, h⟩ => hsettable env h, fun h => ⟨_, hread h⟩⟩,
    fun env => fromEnv_eq_error_iff⟩

end VisitorCounter
