import Weenix.Spec.LdEnv

/-! The lookup in the environment returns a pointer to the `=` and not behind it, and it leaves
the pointer into the name where an entry has moved it. -/

namespace Weenix.Ld

open List

variable {env : List (List Char)} {e var p v : List Char} {i j k : ℕ}

/-- The text before the first `=` of the entry is the name. -/
def Sets (var e : List Char) : Prop := e.takeWhile (· ≠ '=') = var ∧ '=' ∈ e

instance (var e : List Char) : Decidable (Sets var e) := inferInstanceAs (Decidable (_ ∧ _))

/-- What a lookup should return: the text behind the `=` of the first entry for the variable. -/
def valueOf (env : List (List Char)) (var : List Char) : Option (ℕ × ℕ) :=
  (env.findIdx? (Sets var ·)).map (·, var.length + 1)

/-- What is left of the name behind the part that it shares with an entry. -/
def leftOver : List Char → List Char → List Char
  | a :: e, b :: var => if a = b then leftOver e var else b :: var
  | _, var => var

/-- No entry is, or continues with `=`, what the entries before it have left of the name. -/
def Missed : List (List Char) → List Char → Prop
  | [], _ => True
  | e :: env, var => e ≠ var ∧ ¬ var ++ ['='] <+: e ∧ Missed env (leftOver e var)

theorem skipCommon_none : skipCommon e var = none ↔ e = var := by
  fun_induction skipCommon e var with
  | case1 | case2 | case3 => simp
  | case4 p b var ih => simp [ih]
  | case5 a p b var hab => simp [hab]

theorem skipCommon_some (h : skipCommon e var = some (p, v)) :
    v = leftOver e var ∧ e.length + v.length = var.length + p.length ∧ v.length ≤ var.length ∧
      (p.head? = some '=' ∧ v = [] ↔ var ++ ['='] <+: e) := by
  fun_induction skipCommon e var with
  | case1 => cases h
  | case2 b var =>
    cases h
    simp [leftOver]
  | case3 a e =>
    cases h
    simp [leftOver, eq_comm]
  | case4 e b var ih =>
    obtain ⟨h1, h2, h3, h4⟩ := ih h
    simp only [length_cons]
    refine ⟨by simpa [leftOver] using h1, by omega, by omega, ?_⟩
    rw [h4, cons_append, prefix_cons_inj]
  | case5 a e b var hab =>
    cases h
    refine ⟨by simp [leftOver, hab], Nat.add_comm _ _, le_rfl, iff_of_false (by simp) fun h => hab ?_⟩
    exact (cons_prefix_cons.1 h).1.symm

theorem getenvFrom_null : getenvFrom i env var = some none ↔ Missed env var := by
  induction env generalizing i var with
  | nil => exact iff_of_true rfl trivial
  | cons e env ih =>
    rw [getenvFrom, Missed]
    cases hs : skipCommon e var with
    | none => simp [skipCommon_none.1 hs]
    | some r =>
      obtain ⟨hv, -, -, hhit⟩ := skipCommon_some hs
      have hne : e ≠ var := fun he => by simp [skipCommon_none.2 he] at hs
      simp only [Option.bind_eq_bind, Option.bind_some, hhit]
      split_ifs with hpre
      · simp [hpre]
      · rw [ih, hv, and_iff_right hpre, and_iff_right hne]

/-- A pointer that is returned points to a place no further than the length of the name. -/
theorem getenvFrom_le (h : getenvFrom i env var = some (some (k, j))) : j ≤ var.length := by
  induction env generalizing i var with
  | nil => cases h
  | cons e env ih =>
    obtain ⟨⟨p, v⟩, hs, h⟩ := Option.bind_eq_some_iff.1 h
    obtain ⟨-, hlen, hle, -⟩ := skipCommon_some hs
    dsimp only at h
    split_ifs at h with hhit
    · cases h
      omega
    · exact (ih h).trans hle

def ldVariables : List (List Char) :=
  ["LD_BIND_NOW".toList, "LD_DEBUG".toList, "LD_PRELOAD".toList, "LD_LIBRARY_PATH".toList]

/-- A lookup is right just if no entry is for the variable, and none is taken for it. Then the settings of
`_ldenv_init` are those of its variables. -/
theorem ldgetenv_right_iff (env : List (List Char)) :
    (∀ var, ldgetenv env var = some (valueOf env var) ↔ (∀ e ∈ env, ¬ Sets var e) ∧ Missed env var) ∧
    ((∀ var ∈ ldVariables, ldgetenv env var = some (valueOf env var)) →
      ldenvInit (ldgetenv env) = ldenvInit fun var => some (valueOf env var)) := by
  refine ⟨fun var => ?_, fun h => ?_⟩
  · have hnone : valueOf env var = none ↔ ∀ e ∈ env, ¬ Sets var e := by
      simp [valueOf, findIdx?_eq_none_iff]
    rw [← hnone, ← getenvFrom_null (i := 0)]
    constructor
    · intro h
      cases hv : valueOf env var with
      | none => exact ⟨rfl, hv ▸ h⟩
      | some r =>
        rw [hv] at h
        obtain ⟨k, -, rfl⟩ := Option.map_eq_some_iff.1 hv
        exact absurd (getenvFrom_le h) (by omega)
    · rintro ⟨hv, h⟩
      rw [hv]
      exact h
  · simp only [ldVariables, forall_mem_cons] at h
    simp only [ldenvInit, h]

theorem ldgetenv_wrong :
    ldgetenv ["LD_DEBUG=1".toList] "LD_DEBUG".toList = some (some (0, 8)) ∧
    valueOf ["LD_DEBUG=1".toList] "LD_DEBUG".toList = some (0, 9) ∧
    ldgetenv ["LD_PRELOAD=".toList, "LD_DEBUG=1".toList] "LD_DEBUG".toList = some none ∧
    valueOf ["LD_PRELOAD=".toList, "LD_DEBUG=1".toList] "LD_DEBUG".toList = some (1, 9) ∧
    ldgetenv ["LD_PRELOAD=".toList, "DEBUG=1".toList] "LD_DEBUG".toList = some (some (1, 5)) ∧
    valueOf ["LD_PRELOAD=".toList, "DEBUG=1".toList] "LD_DEBUG".toList = none := by
  decide

end Weenix.Ld
