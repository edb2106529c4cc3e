import Mathlib.Order.Defs.Unbundled

/-!
# Reasoning about stateful computations that can fail

A computation is an `EStateM ε σ α`: from a state it ends in `.ok value state` or in
`.error e state`, and what it did to the state before it failed stays done.

* `bind_ok`, `bind_error` — inversion of a sequence: what must have happened for it to
  succeed, and where it can have stopped.
* `Keeps` — a relation between the state before and the state after, whatever the outcome;
  reflexive and transitive relations pass through sequences.
* `Reaches`, `Fails` — a relation between them when the computation succeeds, or when it fails.
* `Keeps.look`, `Reaches.look`, `Fails.look` — a first part that leaves the state as it is has no
  part in what holds between before and after.
* `Returns` — what an answer has to do with them.
* `Agrees` — two-run reasoning: from states related by `R` a computation gives the same
  answer and ends in related states.
* `Raises` — which errors a computation can end with.
* `SameOutcome`, `Matches` — two computations that end alike, up to what their errors say.
-/

set_option autoImplicit false

namespace Effect

universe u

variable {ε σ α β : Type u}

/-- The state a computation ends in, whether it succeeded or not. -/
def final : EStateM.Result ε σ α → σ
  | .ok _ s => s
  | .error _ s => s

/-- The answer of a computation without the state. -/
def answer : EStateM.Result ε σ α → Except ε α
  | .ok a _ => .ok a
  | .error e _ => .error e

@[simp] theorem final_ok (a : α) (s : σ) : final (.ok a s : EStateM.Result ε σ α) = s := rfl
@[simp] theorem final_error (e : ε) (s : σ) :
    final (.error e s : EStateM.Result ε σ α) = s := rfl
@[simp] theorem answer_ok (a : α) (s : σ) :
    answer (.ok a s : EStateM.Result ε σ α) = .ok a := rfl
@[simp] theorem answer_error (e : ε) (s : σ) :
    answer (.error e s : EStateM.Result ε σ α) = .error e := rfl

/-! ## Inversion -/

theorem bind_ok {x : EStateM ε σ α} {f : α → EStateM ε σ β} {s s' : σ} {b : β} :
    (x >>= f).run s = .ok b s' ↔ ∃ a t, x.run s = .ok a t ∧ (f a).run t = .ok b s' := by
  rw [EStateM.run_bind]
  cases h : x.run s with
  | ok a t =>
    simp only [EStateM.Result.ok.injEq]
    exact ⟨fun h' => ⟨a, t, ⟨rfl, rfl⟩, h'⟩, by rintro ⟨_, _, ⟨rfl, rfl⟩, h'⟩; exact h'⟩
  | error e t => simp

theorem bind_error {x : EStateM ε σ α} {f : α → EStateM ε σ β} {s s' : σ} {e : ε} :
    (x >>= f).run s = .error e s' ↔
      x.run s = .error e s' ∨ ∃ a t, x.run s = .ok a t ∧ (f a).run t = .error e s' := by
  rw [EStateM.run_bind]
  cases h : x.run s with
  | ok a t =>
    simp only [EStateM.Result.ok.injEq, reduceCtorEq, false_or]
    exact ⟨fun h' => ⟨a, t, ⟨rfl, rfl⟩, h'⟩, by rintro ⟨_, _, ⟨rfl, rfl⟩, h'⟩; exact h'⟩
  | error e t => simp

@[simp] theorem run_pure (a : α) (s : σ) : (pure a : EStateM ε σ α).run s = .ok a s := rfl

@[simp] theorem run_throw (e : ε) (s : σ) : (throw e : EStateM ε σ α).run s = .error e s := rfl

@[simp] theorem run_ofExcept_ok (a : α) (s : σ) :
    (ofExcept (.ok a) : EStateM ε σ α).run s = .ok a s := rfl

@[simp] theorem run_ofExcept_error (e : ε) (s : σ) :
    (ofExcept (.error e) : EStateM ε σ α).run s = .error e s := rfl

@[simp] theorem run_get (s : σ) : (get : EStateM ε σ σ).run s = .ok s s := rfl

@[simp] theorem run_modify (g : σ → σ) (s : σ) :
    (modify g : EStateM ε σ PUnit).run s = .ok ⟨⟩ (g s) := rfl

theorem run_map_ok {x : EStateM ε σ α} {s s' : σ} {a : α} (h : x.run s = .ok a s') (g : α → β) :
    (g <$> x).run s = .ok (g a) s' := by
  rw [map_eq_pure_bind]
  exact bind_ok.2 ⟨a, s', h, rfl⟩

theorem final_bind_pure (x : EStateM ε σ α) (g : α → β) (s : σ) :
    final ((x >>= fun a => pure (g a)).run s) = final (x.run s) := by
  rw [EStateM.run_bind]
  cases x.run s <;> rfl

theorem ofExcept_ok {x : Except ε α} {s s' : σ} {a : α} :
    (ofExcept x : EStateM ε σ α).run s = .ok a s' ↔ x = .ok a ∧ s' = s := by
  cases x with
  | ok b => simp [eq_comm]
  | error e => simp

/-- A sequence without a state gives an answer where both its parts do. -/
theorem except_bind_ok {x : Except ε α} {f : α → Except ε β} {b : β} :
    (x >>= f) = .ok b ↔ ∃ a, x = .ok a ∧ f a = .ok b := by
  cases x with
  | ok a => simp [bind, Except.bind]
  | error e => simp [bind, Except.bind]

/-- A traversal that fails has failed at one of the elements. -/
theorem mapM_error {f : α → Except ε β} {l : List α} {e : ε} (h : l.mapM f = .error e) :
    ∃ a ∈ l, f a = .error e := by
  induction l with
  | nil => cases h
  | cons a l ih =>
    rw [List.mapM_cons] at h
    cases ha : f a with
    | error e' =>
      rw [ha] at h
      cases h
      exact ⟨a, by simp, ha⟩
    | ok b =>
      rw [ha] at h
      cases hrest : l.mapM f with
      | error e' =>
        rw [hrest] at h
        cases h
        obtain ⟨a', hmem, ha'⟩ := ih hrest
        exact ⟨a', List.mem_cons_of_mem _ hmem, ha'⟩
      | ok bs =>
        rw [hrest] at h
        cases h

/-- What a traversal gives it has from its elements. -/
theorem mapM_ok {f : α → Except ε β} {l : List α} {bs : List β} (h : l.mapM f = .ok bs) :
    ∀ b ∈ bs, ∃ a ∈ l, f a = .ok b := by
  induction l generalizing bs with
  | nil =>
    cases h
    exact fun b hb => (List.not_mem_nil hb).elim
  | cons a l ih =>
    rw [List.mapM_cons] at h
    obtain ⟨b, ha, hrest⟩ := except_bind_ok.1 h
    obtain ⟨rest, hl, hbs⟩ := except_bind_ok.1 hrest
    cases hbs
    intro b' hb'
    rcases List.mem_cons.1 hb' with rfl | hb'
    · exact ⟨a, List.mem_cons_self, ha⟩
    · obtain ⟨a', hmem, ha'⟩ := ih hl b' hb'
      exact ⟨a', List.mem_cons_of_mem _ hmem, ha'⟩

/-- Where every element gives what it gave, a traversal does. -/
theorem mapM_mono {f g : α → Except ε β} (h : ∀ a b, f a = .ok b → g a = .ok b) {l : List α}
    {bs : List β} (hl : l.mapM f = .ok bs) : l.mapM g = .ok bs := by
  induction l generalizing bs with
  | nil => exact hl
  | cons a l ih =>
    rw [List.mapM_cons] at hl ⊢
    obtain ⟨b, ha, hrest⟩ := except_bind_ok.1 hl
    obtain ⟨rest, hrun, hbs⟩ := except_bind_ok.1 hrest
    exact except_bind_ok.2 ⟨b, h a b ha, except_bind_ok.2 ⟨rest, ih hrun, hbs⟩⟩

/-- A traversal of one more element. -/
theorem mapM_concat {f : α → Except ε β} {l : List α} {bs : List β} {a : α} {b : β}
    (hl : l.mapM f = .ok bs) (ha : f a = .ok b) : (l ++ [a]).mapM f = .ok (bs ++ [b]) := by
  rw [List.mapM_append, hl, List.mapM_cons, ha]
  rfl

/-- A traversal stops at the first element that fails. -/
theorem mapM_stops {f : α → Except ε β} {l rest : List α} {bs : List β} {a : α} {e : ε}
    (hl : l.mapM f = .ok bs) (ha : f a = .error e) : (l ++ a :: rest).mapM f = .error e := by
  rw [List.mapM_append, hl, List.mapM_cons, ha]
  rfl

/-! ## Before and after -/

/-- Whatever the answer is, the state after is related to the state before. -/
def Keeps (R : σ → σ → Prop) (x : EStateM ε σ α) : Prop := ∀ s, R s (final (x.run s))

/-- When there is an answer, the state after is related to the state before. -/
def Reaches (Q : σ → σ → Prop) (x : EStateM ε σ α) : Prop :=
  ∀ s a s', x.run s = .ok a s' → Q s s'

/-- When there is none, the state after is related to the state before. -/
def Fails (R : σ → σ → Prop) (x : EStateM ε σ α) : Prop :=
  ∀ s e s', x.run s = .error e s' → R s s'

section Keeps

variable {R Q : σ → σ → Prop} {x : EStateM ε σ α} {f : α → EStateM ε σ β}

theorem Keeps.pure [Std.Refl R] (a : α) : Keeps R (pure a : EStateM ε σ α) :=
  fun s => Std.Refl.refl s

theorem Keeps.throw [Std.Refl R] (e : ε) : Keeps R (throw e : EStateM ε σ α) :=
  fun s => Std.Refl.refl s

theorem Keeps.get [Std.Refl R] : Keeps R (get : EStateM ε σ σ) :=
  fun s => Std.Refl.refl s

theorem Keeps.ofExcept [Std.Refl R] (y : Except ε α) : Keeps R (ofExcept y : EStateM ε σ α) := by
  intro s
  cases y with
  | ok a => exact Std.Refl.refl s
  | error e => exact Std.Refl.refl s

theorem Keeps.bind [IsTrans σ R] (hx : Keeps R x) (hf : ∀ a, Keeps R (f a)) :
    Keeps R (x >>= f) := by
  intro s
  have hfirst := hx s
  rw [EStateM.run_bind]
  cases hrun : x.run s with
  | ok a t =>
    rw [hrun] at hfirst
    exact IsTrans.trans _ _ _ hfirst (hf a t)
  | error e t =>
    rw [hrun] at hfirst
    exact hfirst

theorem Keeps.map [Std.Refl R] [IsTrans σ R] (hx : Keeps R x) (g : α → β) :
    Keeps R (g <$> x) := by
  rw [map_eq_pure_bind]
  exact hx.bind fun a => Keeps.pure (g a)

/-- What is kept whatever happens is kept when there is an answer. -/
theorem Keeps.reaches (hx : Keeps R x) : Reaches R x := by
  intro s a s' hrun
  have := hx s
  rwa [hrun] at this

theorem Keeps.fails (hx : Keeps R x) : Fails R x := by
  intro s e s' hrun
  have := hx s
  rwa [hrun] at this

theorem Fails.bind [IsTrans σ R] (hx : Keeps R x) (hf : ∀ a, Fails R (f a)) :
    Fails R (x >>= f) := by
  intro s e s' hrun
  rcases bind_error.1 hrun with hfirst | ⟨a, t, hfirst, hrest⟩
  · exact hx.fails _ _ _ hfirst
  · exact IsTrans.trans _ _ _ (hx.reaches _ _ _ hfirst) (hf a _ _ _ hrest)

theorem Fails.bind_pure (hx : Fails R x) (g : α → β) : Fails R (x >>= fun a => pure (g a)) := by
  intro s e s' hrun
  rcases bind_error.1 hrun with hfirst | ⟨a, t, -, hrest⟩
  · exact hx _ _ _ hfirst
  · cases hrest

theorem Fails.map (hx : Fails R x) (g : α → β) : Fails R (g <$> x) := by
  rw [map_eq_pure_bind]
  exact hx.bind_pure g

theorem Reaches.throw (e : ε) : Reaches Q (throw e : EStateM ε σ α) := by
  intro s a s' hrun
  cases hrun

/-- The second part reaches it, and the first leaves it in reach. -/
theorem Reaches.after (hx : Reaches R x) (hf : ∀ a, Reaches Q (f a))
    (h : ∀ a b c, R a b → Q b c → Q a c) : Reaches Q (x >>= f) := by
  intro s b s' hrun
  obtain ⟨a, t, hfirst, hrest⟩ := bind_ok.1 hrun
  exact h _ _ _ (hx _ _ _ hfirst) (hf a _ _ _ hrest)

/-- The first part reaches it, and the second does not leave it. -/
theorem Reaches.before (hx : Reaches Q x) (hf : ∀ a, Reaches R (f a))
    (h : ∀ a b c, Q a b → R b c → Q a c) : Reaches Q (x >>= f) := by
  intro s b s' hrun
  obtain ⟨a, t, hfirst, hrest⟩ := bind_ok.1 hrun
  exact h _ _ _ (hx _ _ _ hfirst) (hf a _ _ _ hrest)

/-- What the second part leaves behind, whatever the first did. -/
theorem Reaches.last {Q : σ → Prop} (hf : ∀ a, Reaches (fun _ s => Q s) (f a)) :
    Reaches (fun _ s => Q s) (x >>= f) := by
  intro s b s' hrun
  obtain ⟨a, t, -, hrest⟩ := bind_ok.1 hrun
  exact hf a _ _ _ hrest

theorem Reaches.bind_pure (hx : Reaches Q x) (g : α → β) :
    Reaches Q (x >>= fun a => pure (g a)) := by
  intro s b s' hrun
  obtain ⟨a, t, hfirst, hrest⟩ := bind_ok.1 hrun
  cases hrest
  exact hx _ _ _ hfirst

theorem Reaches.map (hx : Reaches Q x) (g : α → β) : Reaches Q (g <$> x) := by
  rw [map_eq_pure_bind]
  exact hx.bind_pure g

end Keeps

/-! ## Looking -/

/-- The state is as it was. -/
def Unchanged (s s' : σ) : Prop := s' = s

instance : Std.Refl (@Unchanged σ) := ⟨fun _ => rfl⟩

instance : IsTrans σ Unchanged := ⟨fun _ _ _ h h' => h'.trans h⟩

section Look

variable {R : σ → σ → Prop} {x : EStateM ε σ α} {f : α → EStateM ε σ β}

theorem Keeps.look [Std.Refl R] (hx : Keeps Unchanged x) (hf : ∀ a, Keeps R (f a)) :
    Keeps R (x >>= f) := by
  intro s
  have hfirst := hx s
  rw [EStateM.run_bind]
  cases hrun : x.run s with
  | ok a t =>
    rw [hrun] at hfirst
    cases hfirst
    exact hf a _
  | error e t =>
    rw [hrun] at hfirst
    cases hfirst
    exact Std.Refl.refl _

theorem Reaches.look (hx : Keeps Unchanged x) (hf : ∀ a, Reaches R (f a)) :
    Reaches R (x >>= f) := by
  intro s b s' hrun
  obtain ⟨a, t, hfirst, hrest⟩ := bind_ok.1 hrun
  have hsame : t = s := hx.reaches _ _ _ hfirst
  subst hsame
  exact hf a _ _ _ hrest

theorem Fails.look [Std.Refl R] (hx : Keeps Unchanged x) (hf : ∀ a, Fails R (f a)) :
    Fails R (x >>= f) := by
  intro s e s' hrun
  rcases bind_error.1 hrun with hfirst | ⟨a, t, hfirst, hrest⟩
  · have hsame : s' = s := hx.fails _ _ _ hfirst
    subst hsame
    exact Std.Refl.refl _
  · have hsame : t = s := hx.reaches _ _ _ hfirst
    subst hsame
    exact hf a _ _ _ hrest

/-- A sequence that begins with a look ends as the state was, or as the rest ends. -/
theorem Keeps.look_at {s : σ} (hx : Keeps Unchanged x) :
    final ((x >>= f).run s) = s ∨
      ∃ a, x.run s = .ok a s ∧ final ((x >>= f).run s) = final ((f a).run s) := by
  have hfirst := hx s
  rw [EStateM.run_bind]
  cases hrun : x.run s with
  | ok a t =>
    rw [hrun] at hfirst
    cases hfirst
    exact .inr ⟨a, rfl, rfl⟩
  | error e t =>
    rw [hrun] at hfirst
    exact .inl hfirst

/-- Where a sequence that begins with a look fails, the state is as it was or the rest failed. -/
theorem Keeps.look_error {s s' : σ} {e : ε} (hx : Keeps Unchanged x)
    (hrun : (x >>= f).run s = .error e s') :
    s' = s ∨ ∃ a, x.run s = .ok a s ∧ (f a).run s = .error e s' := by
  rcases bind_error.1 hrun with hfirst | ⟨a, t, hfirst, hrest⟩
  · exact .inl (hx.fails _ _ _ hfirst)
  · have hsame : t = s := hx.reaches _ _ _ hfirst
    subst hsame
    exact .inr ⟨a, hfirst, hrest⟩

end Look

/-! ## Answers -/

/-- When there is an answer, it is related to the states before and after. -/
def Returns (Q : α → σ → σ → Prop) (x : EStateM ε σ α) : Prop :=
  ∀ s a s', x.run s = .ok a s' → Q a s s'

section Returns

variable {P : α → σ → σ → Prop} {Q : β → σ → σ → Prop} {x : EStateM ε σ α}
  {f : α → EStateM ε σ β}

theorem Returns.throw (e : ε) : Returns P (throw e : EStateM ε σ α) := by
  intro s a s' hrun
  cases hrun

theorem Returns.mono {P' : α → σ → σ → Prop} (hx : Returns P x)
    (h : ∀ a s s', P a s s' → P' a s s') : Returns P' x :=
  fun s a s' hrun => h a s s' (hx s a s' hrun)

theorem Returns.look (hx : Keeps Unchanged x) (hf : ∀ a, Returns Q (f a)) :
    Returns Q (x >>= f) := by
  intro s b s' hrun
  obtain ⟨a, t, hfirst, hrest⟩ := bind_ok.1 hrun
  have hsame : t = s := hx.reaches _ _ _ hfirst
  subst hsame
  exact hf a _ _ _ hrest

/-- What the second part returns, from where the first one left. -/
theorem Returns.bind {T : α → β → σ → σ → Prop} (hx : Returns P x)
    (hf : ∀ a, Returns (T a) (f a))
    (h : ∀ a b r s t, P a r s → T a b s t → Q b r t) : Returns Q (x >>= f) := by
  intro s b s' hrun
  obtain ⟨a, t, hfirst, hrest⟩ := bind_ok.1 hrun
  exact h a b _ _ _ (hx _ _ _ hfirst) (hf a _ _ _ hrest)

theorem Returns.map (hx : Returns P x) {g : α → β} (h : ∀ a s s', P a s s' → Q (g a) s s') :
    Returns Q (g <$> x) := by
  intro s b s' hrun
  rw [map_eq_pure_bind] at hrun
  obtain ⟨a, t, hfirst, hrest⟩ := bind_ok.1 hrun
  cases hrest
  exact h a _ _ (hx _ _ _ hfirst)

end Returns

/-! ## Two runs -/

/-- From related states the answers are equal and the states after are related. -/
def Agrees (R : σ → σ → Prop) (x : EStateM ε σ α) : Prop :=
  ∀ s t, R s t → answer (x.run s) = answer (x.run t) ∧ R (final (x.run s)) (final (x.run t))

section Agrees

variable {R : σ → σ → Prop} {x : EStateM ε σ α} {f : α → EStateM ε σ β}

theorem Agrees.pure (a : α) : Agrees R (pure a : EStateM ε σ α) :=
  fun _ _ h => ⟨rfl, h⟩

theorem Agrees.throw (e : ε) : Agrees R (throw e : EStateM ε σ α) :=
  fun _ _ h => ⟨rfl, h⟩

theorem Agrees.ofExcept (y : Except ε α) : Agrees R (ofExcept y : EStateM ε σ α) := by
  intro s t h
  cases y with
  | ok a => exact ⟨rfl, h⟩
  | error e => exact ⟨rfl, h⟩

theorem Agrees.bind (hx : Agrees R x) (hf : ∀ a, Agrees R (f a)) : Agrees R (x >>= f) := by
  intro s t h
  have hfirst := hx s t h
  rw [EStateM.run_bind, EStateM.run_bind]
  cases hs : x.run s with
  | ok a s' =>
    cases ht : x.run t with
    | ok b t' =>
      rw [hs, ht] at hfirst
      obtain ⟨hanswer, hstates⟩ := hfirst
      cases hanswer
      exact hf a s' t' hstates
    | error e t' =>
      rw [hs, ht] at hfirst
      cases hfirst.1
  | error e s' =>
    cases ht : x.run t with
    | ok b t' =>
      rw [hs, ht] at hfirst
      cases hfirst.1
    | error e' t' =>
      rw [hs, ht] at hfirst
      obtain ⟨hanswer, hstates⟩ := hfirst
      cases hanswer
      exact ⟨rfl, hstates⟩

/-- Nothing that follows a failure has a part in the answer. -/
theorem Agrees.throw_bind (e : ε) : Agrees R ((MonadExcept.throw e : EStateM ε σ α) >>= f) :=
  fun _ _ h => ⟨rfl, h⟩

theorem Agrees.map (hx : Agrees R x) (g : α → β) : Agrees R (g <$> x) := by
  rw [map_eq_pure_bind]
  exact hx.bind fun a => Agrees.pure (g a)

end Agrees

/-! ## Which errors there can be -/

/-- Every error is one of `E`. -/
def Raises (E : ε → Prop) (x : EStateM ε σ α) : Prop :=
  ∀ s e s', x.run s = .error e s' → E e

section Raises

variable {E : ε → Prop} {x : EStateM ε σ α} {f : α → EStateM ε σ β}

theorem Raises.pure (a : α) : Raises E (pure a : EStateM ε σ α) := by
  intro s e s' hrun
  cases hrun

theorem Raises.throw {e : ε} (h : E e) : Raises E (throw e : EStateM ε σ α) := by
  intro s e' s' hrun
  cases hrun
  exact h

theorem Raises.ofExcept {y : Except ε α} (h : ∀ e, y = .error e → E e) :
    Raises E (ofExcept y : EStateM ε σ α) := by
  intro s e s' hrun
  cases y with
  | ok a => cases hrun
  | error e' =>
    cases hrun
    exact h e rfl

theorem Raises.bind (hx : Raises E x) (hf : ∀ a, Raises E (f a)) : Raises E (x >>= f) := by
  intro s e s' hrun
  rcases bind_error.1 hrun with hfirst | ⟨a, t, -, hrest⟩
  · exact hx _ _ _ hfirst
  · exact hf a _ _ _ hrest

end Raises

/-! ## Two computations -/

/-- Both end with the same answer, or both without one, and in the same state. -/
inductive SameOutcome : EStateM.Result ε σ α → EStateM.Result ε σ α → Prop where
  | ok (a : α) (s : σ) : SameOutcome (.ok a s) (.ok a s)
  | error (e e' : ε) (s : σ) : SameOutcome (.error e s) (.error e' s)

/-- From every state two computations end alike. -/
def Matches (x y : EStateM ε σ α) : Prop := ∀ s, SameOutcome (x.run s) (y.run s)

section Matches

variable {x y : EStateM ε σ α} {f g : α → EStateM ε σ β}

theorem SameOutcome.refl (r : EStateM.Result ε σ α) : SameOutcome r r := by
  cases r with
  | ok a s => exact .ok a s
  | error e s => exact .error e e s

theorem SameOutcome.final_eq {r r' : EStateM.Result ε σ α} (h : SameOutcome r r') :
    final r' = final r := by
  cases h with
  | ok a s => rfl
  | error e e' s => rfl

theorem SameOutcome.answer_eq {r r' : EStateM.Result ε σ α} (h : SameOutcome r r') :
    (answer r').toOption = (answer r).toOption := by
  cases h with
  | ok a s => rfl
  | error e e' s => rfl

/-- Sequences end alike where their first parts do, and then what follows. -/
theorem SameOutcome.bind {s : σ} (hx : SameOutcome (x.run s) (y.run s))
    (hf : ∀ a t, x.run s = .ok a t → SameOutcome ((f a).run t) ((g a).run t)) :
    SameOutcome ((x >>= f).run s) ((y >>= g).run s) := by
  rw [EStateM.run_bind, EStateM.run_bind]
  cases hrun : x.run s with
  | ok a t =>
    rw [hrun] at hx
    have hrest := hf a t hrun
    cases hx' : y.run s with
    | ok b t' =>
      rw [hx'] at hx
      cases hx
      exact hrest
    | error e t' =>
      rw [hx'] at hx
      cases hx
  | error e t =>
    rw [hrun] at hx
    cases hx' : y.run s with
    | ok b t' =>
      rw [hx'] at hx
      cases hx
    | error e' t' =>
      rw [hx'] at hx
      cases hx
      exact .error e e' t

theorem Matches.refl (x : EStateM ε σ α) : Matches x x := fun s => .refl (x.run s)

theorem Matches.bind (hx : Matches x y) (hf : ∀ a, Matches (f a) (g a)) :
    Matches (x >>= f) (y >>= g) :=
  fun s => (hx s).bind fun a t _ => hf a t

theorem Matches.map (hx : Matches x y) (g : α → β) : Matches (g <$> x) (g <$> y) := by
  rw [map_eq_pure_bind, map_eq_pure_bind]
  exact hx.bind fun a => Matches.refl _

end Matches

end Effect
