import EuleDB.Crypto.Capability
import EuleDB.Crypto.KeyringRuns
import EuleDB.Lib.Sha256

/-!
# What an authority granted

A gate is built from a keyring and from tokens of any origin: granted by that keyring before or
after a rotation, granted by another, or changed after they were granted.

* `message_inj` — what a tag is computed over says which table and which scope.
* `Keyring.Rotated.tokenKey_eq` — rotations keep the token key, whether they succeed or fail.
* `Gate.permits_iff_granted` — the gate honours exactly what its own keyring granted.
-/

set_option autoImplicit false

namespace EuleDB.Crypto

open Endian Lines Effect Capability

/-! ## The message -/

theorem Scope.asBytes_inj {a b : Bytes} {s s' : Scope} (h : a ++ s.asBytes = b ++ s'.asBytes) :
    a = b ∧ s = s' := by
  -- the words end with different letters
  have hlast : ∀ scope : Scope, scope.asBytes ≠ [] := by
    intro scope
    cases scope <;> decide
  have hends : s.asBytes.getLast? = s'.asBytes.getLast? := by
    have := congrArg List.getLast? h
    rwa [List.getLast?_append_of_ne_nil _ (hlast s),
      List.getLast?_append_of_ne_nil _ (hlast s')] at this
  have hscope : s = s' := by
    cases s <;> cases s' <;> first | rfl | exact absurd hends (by decide)
  subst hscope
  exact ⟨List.append_cancel_right h, rfl⟩

/-- **What a tag is computed over has one reading**, for every table and scope. -/
theorem message_inj {table table' : Text} {scope scope' : Scope}
    (h : message table scope = message table' scope') : table = table' ∧ scope = scope' := by
  unfold message at h
  rw [List.append_assoc, List.append_assoc, List.append_assoc, List.append_assoc] at h
  have hrest := List.append_cancel_left h
  have hwords := (List.append_inj hrest (by rw [length_beBytes, length_beBytes])).2
  obtain ⟨htable, hscope⟩ := Scope.asBytes_inj hwords
  exact ⟨utf8_inj htable, hscope⟩

/-! ## Rotations -/

variable (P : Platform)

/-- A keyring after rotations, each of which succeeded or failed. -/
inductive Keyring.Rotated (k : Keyring) : Keyring → Prop where
  | refl : Rotated k k
  | rotate {before : Keyring} (t : Trace) : Rotated k before →
    Rotated k (final ((rotateDataKey P).run (before, t))).1

/-- The key-encryption key is the one it was. -/
def SameKek (s s' : Keyring × Trace) : Prop := s'.1.kek = s.1.kek

instance : Std.Refl SameKek := ⟨fun _ => rfl⟩

instance : IsTrans (Keyring × Trace) SameKek := ⟨fun _ _ _ h h' => h'.trans h⟩

theorem onTrace_keeps {α : Type} (x : EStateM KeyringError Trace α) :
    Keeps SameKek (onTrace x) := by
  rintro ⟨k, t⟩
  unfold onTrace EStateM.run
  dsimp only
  split <;> rfl

theorem keyring_keeps : Keeps SameKek keyring := Keeps.get.bind fun _ => Keeps.pure _

theorem setKeyring_keeps {g : Keyring → Keyring} (hg : ∀ k, (g k).kek = k.kek) :
    Keeps SameKek (setKeyring g) := fun state => hg state.1

theorem fillField_keeps {len : Nat} {read : Keyring → Octets len}
    {write : Keyring → Octets len → Keyring} (hwrite : ∀ k bytes, (write k bytes).kek = k.kek) :
    Keeps SameKek (fillField P read write) := by
  rintro ⟨k, t⟩
  unfold fillField EStateM.run
  dsimp only
  split
  · exact hwrite k _
  · exact hwrite k _

theorem Keyring.reseal_keeps : Keeps SameKek (reseal P) := by
  refine Keeps.bind (fillField_keeps P fun _ _ => rfl) fun _ => ?_
  refine Keeps.bind keyring_keeps fun k => ?_
  exact Keeps.bind (onTrace_keeps _) fun sealed => setKeyring_keeps fun _ => rfl

theorem Keyring.rotateDataKey_keeps : Keeps SameKek (rotateDataKey P) := by
  refine Keeps.bind keyring_keeps fun k => ?_
  split
  · exact Keeps.throw _
  · refine Keeps.bind (onTrace_keeps _) fun key => ?_
    refine Keeps.bind (setKeyring_keeps fun _ => rfl) fun _ => ?_
    refine Keeps.bind (setKeyring_keeps fun _ => rfl) fun _ => ?_
    exact Keeps.bind (reseal_keeps P) fun _ => Keeps.pure _

/-- **Rotations keep the token key.** -/
theorem Keyring.Rotated.tokenKey_eq {k k' : Keyring} (h : k.Rotated P k') :
    k'.tokenKey P = k.tokenKey P := by
  have hkek : k'.kek = k.kek := by
    induction h with
    | refl => rfl
    | rotate t _ ih => exact (Keyring.rotateDataKey_keeps P (_, t)).trans ih
  unfold Keyring.tokenKey
  rw [hkek]

/-! ## Tokens of any origin -/

/-- A token as it was granted, and as it is held now. -/
structure Token where
  issuer : Keyring
  grantedTable : Text
  grantedScope : Scope
  table : Text
  scope : Scope

/-- The capability that is held: its tag is the one it was granted with. -/
def Token.capability (token : Token) : Capability :=
  { token.issuer.grant P token.grantedTable token.grantedScope with
    table := token.table, scope := token.scope }

/-- Neither the table nor the scope was changed. -/
def Token.Unaltered (token : Token) : Prop :=
  token.table = token.grantedTable ∧ token.scope = token.grantedScope

/-- What the token's tag was computed from: a key and a message. -/
def Token.signed (token : Token) : Bytes × Bytes :=
  ((token.issuer.tokenKey P).1, message token.grantedTable token.grantedScope)

/-- What the gate computes a tag from for a table and a scope. -/
def Keyring.checked (k : Keyring) (table : Text) (scope : Scope) : Bytes × Bytes :=
  ((k.tokenKey P).1, message table scope)

/-- HMAC gives no two of these keys and messages one tag. -/
def Platform.HmacInjective (inputs : List (Bytes × Bytes)) : Prop :=
  ∀ a ∈ inputs, ∀ b ∈ inputs, P.hmac a.1 a.2 = P.hmac b.1 b.2 → a = b

/-- **The gate honours exactly what its authority granted**: a table and a scope are permitted
exactly when a token that its own keyring granted for them is among the tokens, unaltered. -/
theorem Gate.permits_iff_granted {k gating : Keyring} (hgating : k.Rotated P gating)
    {tokens : List Token}
    (hdrawn : ∀ token ∈ tokens,
      k.Rotated P token.issuer ∨ token.issuer.tokenKey P ≠ k.tokenKey P)
    {table : Text} {scope : Scope}
    (hmac : P.HmacInjective (gating.checked P table scope :: tokens.map (Token.signed P))) :
    (Gate.new P gating (tokens.map (Token.capability P))).permits P table scope ↔
      ∃ token ∈ tokens, k.Rotated P token.issuer ∧ token.Unaltered ∧ token.table = table ∧
        token.scope = scope := by
  have hkey := hgating.tokenKey_eq
  rw [Gate.permits_iff]
  constructor
  · intro hmem
    obtain ⟨token, htoken, hcapability⟩ := List.mem_map.1 hmem
    have htable : token.table = table := congrArg Capability.table hcapability
    have hscope : token.scope = scope := congrArg Capability.scope hcapability
    have htag : P.hmac (token.signed P).1 (token.signed P).2 =
        P.hmac (gating.checked P table scope).1 (gating.checked P table scope).2 :=
      congrArg Capability.tag hcapability
    have hsame : token.signed P = gating.checked P table scope :=
      hmac _ (List.mem_cons_of_mem _ (List.mem_map_of_mem htoken)) _ List.mem_cons_self htag
    have hissuer : token.issuer.tokenKey P = k.tokenKey P := by
      rw [← hkey]
      exact Subtype.ext (congrArg Prod.fst hsame)
    obtain ⟨hgrantedTable, hgrantedScope⟩ := message_inj (congrArg Prod.snd hsame)
    refine ⟨token, htoken, (hdrawn token htoken).resolve_right fun hother => hother hissuer, ?_,
      htable, hscope⟩
    exact ⟨htable.trans hgrantedTable.symm, hscope.trans hgrantedScope.symm⟩
  · rintro ⟨token, htoken, hissuer, ⟨htable, hscope⟩, rfl, rfl⟩
    refine List.mem_map.2 ⟨token, htoken, ?_⟩
    unfold Token.capability Keyring.grant Gate.new
    rw [htable, hscope, hissuer.tokenKey_eq, hkey]

theorem Platform.hmacInjective_pair {a b : Bytes × Bytes}
    (h : P.hmac a.1 a.2 ≠ P.hmac b.1 b.2) {inputs : List (Bytes × Bytes)}
    (hinputs : ∀ input ∈ inputs, input = a ∨ input = b) : P.HmacInjective inputs := by
  intro x hx y hy hsame
  rcases hinputs x hx with rfl | rfl
  · rcases hinputs y hy with rfl | rfl
    · rfl
    · exact absurd hsame h
  · rcases hinputs y hy with rfl | rfl
    · exact absurd hsame.symm h
    · rfl

/-- A platform that signs with HMAC-SHA256. -/
def Platform.signing : Platform :=
  { Platform.padding with
    hmac := fun key message => ⟨Sha256.hmac key message, Sha256.length_hmac key message⟩ }

/-- A gate after a rotation, with a grant, another authority's, and one that was changed. -/
theorem gate_after_rotation :
    let k : Keyring := ⟨∅, .FIRST, padTo KEY_LEN [1], padTo SALT_LEN [], padTo NONCE_LEN [], []⟩
    let other : Keyring := { k with kek := padTo KEY_LEN [2] }
    let gating := (final ((Keyring.rotateDataKey Platform.signing).run (k, .empty))).1
    let docs := "docs".toList
    let tokens : List Token := [⟨k, docs, .read, docs, .read⟩, ⟨other, docs, .write, docs, .write⟩,
      ⟨gating, docs, .read, docs, .schema⟩]
    let gate := Gate.new Platform.signing gating (tokens.map (Token.capability Platform.signing))
    gate.permits Platform.signing docs .read = true := by
  intro k other gating docs tokens gate
  have hgating : k.Rotated Platform.signing gating := .rotate .empty .refl
  have hkey : gating.tokenKey Platform.signing = k.tokenKey Platform.signing :=
    hgating.tokenKey_eq
  obtain ⟨hother, hdistinct⟩ :
      other.tokenKey Platform.signing ≠ k.tokenKey Platform.signing ∧
        Platform.signing.hmac (k.tokenKey Platform.signing).1 (message docs .read) ≠
          Platform.signing.hmac (other.tokenKey Platform.signing).1 (message docs .write) := by
    decide +kernel
  refine (Gate.permits_iff_granted Platform.signing hgating ?_ ?_).2
    ⟨⟨k, docs, .read, docs, .read⟩, List.mem_cons_self, .refl, ⟨rfl, rfl⟩, rfl, rfl⟩
  · intro token htoken
    simp only [tokens, List.mem_cons, List.not_mem_nil, or_false] at htoken
    rcases htoken with rfl | rfl | rfl
    · exact .inl .refl
    · exact .inr hother
    · exact .inl hgating
  · refine Platform.hmacInjective_pair Platform.signing
      (a := ((k.tokenKey Platform.signing).1, message docs .read))
      (b := ((other.tokenKey Platform.signing).1, message docs .write)) hdistinct ?_
    intro input hinput
    simp only [tokens, Token.signed, Keyring.checked, hkey, List.map_cons, List.map_nil,
      List.mem_cons, List.not_mem_nil, or_false] at hinput
    rcases hinput with hinput | hinput | hinput | hinput
    · exact .inl hinput
    · exact .inl hinput
    · exact .inr hinput
    · exact .inl hinput

end EuleDB.Crypto
