import SystemProgramming.Lib.Ledger

/-!
# What the objects hold

A copy holds what its source holds at that moment, and an object that has been destroyed holds
nothing any more.
-/

namespace SystemProgramming

/-- What the objects of a trace hold, in the order of their numbers, and what has been read for the
next one. -/
structure Holdings (V : Type*) where
  made : List (Option V)
  copied : Option (Option V)

namespace Holdings

variable {V : Type*} (given : ℕ → V) (fallback : V)

def lookup (σ : Holdings V) (k : ℕ) : Option V := σ.made[k]?.join

def value (σ : Holdings V) : Object → Option V
  | .made k => σ.lookup k
  | .outside k => some (given k)

/-- An object that is made without a source holds the default. -/
def act (σ : Holdings V) : Action → Holdings V
  | .construct _ => ⟨σ.made ++ [σ.copied.getD (some fallback)], none⟩
  | .copy source => { σ with copied := some (σ.value given source) }
  | .destroy (.made k) => { σ with made := σ.made.set k none }
  | .destroy (.outside _) => σ

def after (trace : List Action) : Holdings V := trace.foldl (act given fallback) ⟨[], none⟩

variable {given fallback} {σ : Holdings V} {trace : List Action} {o : Object} {k : ℕ}

theorem after_append (actions : List Action) : after given fallback (trace ++ actions) =
    actions.foldl (act given fallback) (after given fallback trace) :=
  List.foldl_append

/-- A copy is made. -/
theorem after_copy : after given fallback (trace ++ [.copy o] ++ [.construct k]) =
    ⟨(after given fallback trace).made ++ [(after given fallback trace).value given o], none⟩ := by
  rw [after_append, after_append]
  rfl

theorem after_construct (h : (after given fallback trace).copied = none) :
    after given fallback (trace ++ [.construct k]) =
      ⟨(after given fallback trace).made ++ [some fallback], none⟩ := by
  rw [after_append]
  simp only [List.foldl_cons, List.foldl_nil, act, h, Option.getD_none]

@[simp] theorem lookup_mk (made : List (Option V)) (copied : Option (Option V)) :
    lookup ⟨made, copied⟩ k = made[k]?.join := rfl

theorem lookup_append_of_lt {made : List (Option V)} {x : Option V} (h : k < made.length) :
    lookup ⟨made ++ [x], none⟩ k = made[k]?.join := by
  rw [lookup_mk, List.getElem?_append_left h]

theorem lookup_append_self {made : List (Option V)} {x : Option V} :
    lookup ⟨made ++ [x], none⟩ made.length = x := by
  rw [lookup_mk, List.getElem?_concat_length, Option.join_some]

/-- Objects are destroyed, and the others hold what they held. -/
theorem after_destroy (given : ℕ → V) (fallback : V) (trace : List Action) (ks : List ℕ) :
    ∃ made, after given fallback (trace ++ ks.map fun k ↦ .destroy (.made k)) =
        ⟨made, (after given fallback trace).copied⟩ ∧
      made.length = (after given fallback trace).made.length ∧
      (∀ j ∉ ks, made[j]?.join = (after given fallback trace).lookup j) ∧
      ∀ j ∈ ks, made[j]?.join = none := by
  rw [after_append]
  generalize after given fallback trace = σ
  induction ks generalizing σ with
  | nil => exact ⟨σ.made, rfl, rfl, fun _ _ ↦ rfl, nofun⟩
  | cons k ks ih =>
      obtain ⟨made, hafter, hlength, hkept, hgone⟩ := ih { σ with made := σ.made.set k none }
      refine ⟨made, hafter, by rw [hlength, List.length_set], fun j hj ↦ ?_, fun j hj ↦ ?_⟩
      · rw [List.mem_cons, not_or] at hj
        obtain ⟨hne, hj⟩ := hj
        rw [hkept j hj, lookup, lookup, List.getElem?_set_ne (Ne.symm hne)]
      · by_cases hmem : j ∈ ks
        · exact hgone j hmem
        · obtain rfl := (List.mem_cons.mp hj).resolve_right hmem
          rw [hkept j hmem, lookup]
          by_cases hlt : j < σ.made.length
          · rw [List.getElem?_set_self hlt, Option.join_some]
          · rw [List.getElem?_eq_none (by rwa [List.length_set, ← not_lt])]
            rfl

end Holdings

end SystemProgramming
