import Mathlib.Tactic.SplitIfs
import Std.Data.ExtTreeMap.Lemmas
import EuleDB.Lib.Effect

/-!
# A cache that is filled on first use

What is built for a key is kept, and handed out from then on.  What a build gives can depend on when
it is made, and it can fail; a failure is not kept.

* `fetch` — from the cache, or built.
* `Memo.Within` — what is in a cache stays there: `fetch_within`, and `fetch_returns` for what was
  handed out.
* `Memo.Holds`, `fetch_holds` — what is in a cache was built.
* `fetch_answer` — where builds do not depend on the time the cache makes no difference.
-/

set_option autoImplicit false

namespace Cache

open Effect

variable {κ υ ε : Type} [Ord κ]

/-- What was built, and how often something was to be. -/
structure Memo (κ υ : Type) [Ord κ] where
  built : Std.ExtTreeMap κ υ
  builds : Nat

def Memo.empty : Memo κ υ := ⟨∅, 0⟩

variable [Std.TransOrd κ]

/-- What is kept for a key, or else what the next build gives, which is kept. -/
def fetch (build : Nat → κ → Except ε υ) (key : κ) : EStateM ε (Memo κ υ) υ := do
  let memo ← get
  match memo.built[key]? with
  | some value => pure value
  | none =>
    modify fun memo => { memo with builds := memo.builds + 1 }
    let value ← ofExcept (build memo.builds key)
    modify fun memo => { memo with built := memo.built.insert key value }
    pure value

variable {build : Nat → κ → Except ε υ} {key : κ} {memo memo' : Memo κ υ} {value : υ}

/-- The three ways a fetch can go. -/
theorem fetch_eq (build : Nat → κ → Except ε υ) (key : κ) (memo : Memo κ υ) :
    (fetch build key).run memo =
      match memo.built[key]?, build memo.builds key with
      | some value, _ => .ok value memo
      | none, .ok value => .ok value ⟨memo.built.insert key value, memo.builds + 1⟩
      | none, .error e => .error e { memo with builds := memo.builds + 1 } := by
  unfold fetch
  rw [EStateM.run_bind, run_get]
  dsimp only
  cases memo.built[key]? with
  | some value => rfl
  | none =>
    cases build memo.builds key with
    | ok value => rw [EStateM.run_bind, run_modify]; rfl
    | error e => rw [EStateM.run_bind, run_modify]; rfl

/-- Everything in the one cache is in the other. -/
def Memo.Within (memo memo' : Memo κ υ) : Prop :=
  ∀ (key : κ) (value : υ), memo.built[key]? = some value → memo'.built[key]? = some value

instance : Std.Refl (Memo.Within : Memo κ υ → Memo κ υ → Prop) := ⟨fun _ _ _ h => h⟩

instance : IsTrans (Memo κ υ) Memo.Within :=
  ⟨fun _ _ _ h h' key value hv => h' key value (h key value hv)⟩

/-- What was handed out is in the cache. -/
theorem fetch_returns (h : (fetch build key).run memo = .ok value memo') :
    memo'.built[key]? = some value := by
  rw [fetch_eq] at h
  cases hkept : memo.built[key]? with
  | some kept =>
    rw [hkept] at h
    cases h
    exact hkept
  | none =>
    rw [hkept] at h
    cases hbuild : build memo.builds key with
    | error e =>
      rw [hbuild] at h
      cases h
    | ok built =>
      rw [hbuild] at h
      cases h
      exact Std.ExtTreeMap.getElem?_insert_self

/-- Everything in the cache is of one kind. -/
def Memo.Holds (p : κ → υ → Prop) (memo : Memo κ υ) : Prop :=
  ∀ (key : κ) (value : υ), memo.built[key]? = some value → p key value

theorem Memo.Holds.empty (p : κ → υ → Prop) : (Memo.empty : Memo κ υ).Holds p := by
  intro key value h
  simp [Memo.empty] at h

/-- **Where builds do not depend on the time, the cache makes no difference.** -/
theorem fetch_answer {f : κ → Except ε υ} (hbuild : ∀ n, build n = f)
    (h : memo.Holds fun k v => f k = .ok v) (key : κ) :
    answer ((fetch build key).run memo) = f key := by
  rw [fetch_eq, hbuild]
  cases hkept : memo.built[key]? with
  | some value => exact (h key value hkept).symm
  | none => cases f key <;> rfl

variable [Std.LawfulEqOrd κ]

/-- **What is in the cache stays there.** -/
theorem fetch_within (build : Nat → κ → Except ε υ) (key : κ) :
    Keeps Memo.Within (fetch build key) := by
  intro memo
  rw [fetch_eq]
  cases hkept : memo.built[key]? with
  | some value => exact Std.Refl.refl memo
  | none =>
    cases build memo.builds key with
    | error e => exact fun _ _ h => h
    | ok value =>
      intro k v hv
      dsimp only [final_ok]
      rw [Std.ExtTreeMap.getElem?_insert]
      split_ifs with heq
      · rw [Std.LawfulEqCmp.eq_of_compare heq] at hkept
        rw [hkept] at hv
        cases hv
      · exact hv

/-- **The cache holds what builds give.** -/
theorem fetch_holds {p : κ → υ → Prop} (hbuild : ∀ n k v, build n k = .ok v → p k v)
    (h : memo.Holds p) (key : κ) : (final ((fetch build key).run memo)).Holds p := by
  rw [fetch_eq]
  cases hkept : memo.built[key]? with
  | some value => exact h
  | none =>
    cases hvalue : build memo.builds key with
    | error e => exact h
    | ok value =>
      intro k v hv
      dsimp only [final_ok] at hv
      rw [Std.ExtTreeMap.getElem?_insert] at hv
      split_ifs at hv with heq
      · cases hv
        rw [← Std.LawfulEqCmp.eq_of_compare heq]
        exact hbuild _ _ _ hvalue
      · exact h k v hv

end Cache
