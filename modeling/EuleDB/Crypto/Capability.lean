import EuleDB.Crypto.Keyring
import EuleDB.Lib.Lines

/-!
# Capability tokens

What a handle is allowed to do, and the tag that proves someone granted it.

* `Gate.permits_iff` — a gate permits what a token it holds names, as long as the tag verifies.
* `Gate.permits_grant` — a token that the gate's own keyring granted does.
-/

set_option autoImplicit false

namespace EuleDB.Crypto

open Endian Lines

/-- What an operation is allowed to do.  Scopes do not imply one another. -/
inductive Scope where
  | read
  | write
  | schema
  deriving DecidableEq

/-- The scope as it goes into a signature. -/
def Scope.asBytes : Scope → Bytes
  | read => utf8 "read".toList
  | write => utf8 "write".toList
  | schema => utf8 "schema".toList

namespace Capability

/-- The context that separates a token key from every other key. -/
def CONTEXT : Bytes := utf8 "euledb/capability/v1".toList

/-- The context the token key is derived under. -/
def TOKEN_KEY_CONTEXT : Bytes := utf8 "euledb/token-key/v1".toList

/-- What a tag is computed over.  The table's length stands before the table. -/
def message (table : Text) (scope : Scope) : Bytes :=
  CONTEXT ++ beBytes 8 (min (utf8 table).length (UInt64.size - 1)) ++ utf8 table ++ scope.asBytes

end Capability

/-- One granted permission, and the tag proving the authority granted it. -/
structure Capability where
  table : Text
  scope : Scope
  tag : Octets MAC_LEN
  deriving DecidableEq

variable (P : Platform)

/-- The secret that capability tokens are signed with. -/
def Keyring.tokenKey (k : Keyring) : Octets MAC_LEN :=
  P.hmac k.kek.1 Capability.TOKEN_KEY_CONTEXT

/-- Grant a capability on one table. -/
def Keyring.grant (k : Keyring) (table : Text) (scope : Scope) : Capability :=
  ⟨table, scope, P.hmac (k.tokenKey P).1 (Capability.message table scope)⟩

/-- The capabilities a handle carries, and the authority to check them against. -/
structure Gate where
  key : Octets MAC_LEN
  granted : List Capability
  deriving DecidableEq

/-- A gate from an authority and the set of permissions it granted. -/
def Gate.new (k : Keyring) (granted : List Capability) : Gate := ⟨k.tokenKey P, granted⟩

/-- Whether a token's tag was produced by this gate's authority. -/
def Gate.verifies (g : Gate) (capability : Capability) : Bool :=
  P.hmac g.key.1 (Capability.message capability.table capability.scope) = capability.tag

/-- Whether this gate permits `scope` on `table`. -/
def Gate.permits (g : Gate) (table : Text) (scope : Scope) : Bool :=
  g.granted.any fun capability =>
    capability.scope = scope && capability.table = table && g.verifies P capability

theorem Gate.permits_iff (g : Gate) (table : Text) (scope : Scope) :
    g.permits P table scope ↔
      (⟨table, scope, P.hmac g.key.1 (Capability.message table scope)⟩ : Capability) ∈
        g.granted := by
  unfold permits verifies
  simp only [List.any_eq_true, Bool.and_eq_true, decide_eq_true_eq]
  constructor
  · rintro ⟨capability, hmem, ⟨hscope, htable⟩, htag⟩
    subst hscope htable
    rwa [htag]
  · intro hmem
    exact ⟨_, hmem, ⟨rfl, rfl⟩, rfl⟩

/-- A token that the gate's own keyring granted is honoured. -/
theorem Gate.permits_grant {k : Keyring} {granted : List Capability} {table : Text}
    {scope : Scope} (h : k.grant P table scope ∈ granted) :
    (Gate.new P k granted).permits P table scope :=
  (Gate.permits_iff P _ table scope).2 h

end EuleDB.Crypto
