import GalaxDb.Storage.Engine

/-!
# Encrypted SST files

What the engine takes from the encryption module, and passes over a registry whose entries
say more about a file than its path.
-/

namespace GalaxDb

/-- AEGIS-256 over blocks on their way to disk: the nonce counter, then the plaintext. -/
structure TdeModule (σ : Type) where
  encrypt : Nat → σ → σ
  decrypt : σ → Option σ

/-- `encrypt_block_data` and `compaction_encrypt`: without a module nothing is encrypted. -/
def encryptBlock {σ : Type} (tde : Option (TdeModule σ)) (nonce : Nat) (block : σ) : σ :=
  match tde with
  | some m => m.encrypt nonce block
  | none => block

/-- `compaction_decrypt`, and the same step of a point read. -/
def decryptBlock {σ : Type} (tde : Option (TdeModule σ)) (encrypted : Bool) (raw : σ) : Option σ :=
  match encrypted, tde with
  | true, some m => m.decrypt raw
  | _, _ => some raw

/-- The blocks of a file, each under the next nonce. -/
def encryptAll {σ : Type} (tde : Option (TdeModule σ)) : Nat → List σ → List σ
  | _, [] => []
  | nonce, block :: rest => encryptBlock tde nonce block :: encryptAll tde (nonce + 1) rest

namespace IterOrder

variable {α : Type} (path : α → Nat)

/-- A pass over a registry, in the order that the hash map has for ids and paths. -/
def entries (order : IterOrder) (registry : Std.ExtTreeMap Nat α compare) : List (Nat × α) :=
  (order.order (registry.toList.map fun e => (e.1, ⟨path e.2⟩))).filterMap fun e =>
    (registry[e.1]?).map fun a => (e.1, a)

end IterOrder

end GalaxDb
