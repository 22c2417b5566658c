import Mathlib.Tactic.TypeStar

/-!
# Self-delimiting codes

A code is self-delimiting when what it writes can be told from whatever follows. Codes of a
fixed width are, and pairs, tagged alternatives and counted lists of such codes are again.
-/

namespace GalaxDb.Codes

variable {α β γ δ : Type*}

/-- Of two texts that begin with encodings and are equal, the encoded values and the rests
are equal. -/
def SelfDelimiting (ok : α → Prop) (encode : α → List δ) : Prop :=
  ∀ ⦃a b : α⦄, ok a → ok b → ∀ ⦃s t : List δ⦄, encode a ++ s = encode b ++ t → a = b ∧ s = t

section Rules

variable {ok : α → Prop} {ok' : β → Prop} {encode : α → List δ} {encode' : β → List δ}

theorem SelfDelimiting.injective (code : SelfDelimiting ok encode) {a b : α} (ha : ok a) (hb : ok b)
    (same : encode a = encode b) : a = b := by
  have padded : encode a ++ [] = encode b ++ [] := by rw [same]
  exact (code ha hb padded).1

theorem SelfDelimiting.mono {ok1 : α → Prop} (code : SelfDelimiting ok encode)
    (narrower : ∀ a, ok1 a → ok a) : SelfDelimiting ok1 encode :=
  fun _ _ ha hb _ _ same => code (narrower _ ha) (narrower _ hb) same

variable {count : Nat → List δ} {okCount : Nat → Prop} {w : Nat}

/-- All encodings have one length. -/
theorem selfDelimiting_of_width (width : ∀ a, ok a → (encode a).length = w)
    (injective : ∀ a b, ok a → ok b → encode a = encode b → a = b) : SelfDelimiting ok encode := by
  intro a b ha hb s t same
  have lengths : (encode a).length = (encode b).length := (width a ha).trans (width b hb).symm
  obtain ⟨encodings, rests⟩ := List.append_inj same lengths
  exact ⟨injective a b ha hb encodings, rests⟩

/-- A value is written as another one that determines it. -/
theorem SelfDelimiting.comap (code : SelfDelimiting ok encode) (f : γ → α)
    {ok1 : γ → Prop} (maps : ∀ c, ok1 c → ok (f c))
    (injective : ∀ c d, ok1 c → ok1 d → f c = f d → c = d) :
    SelfDelimiting ok1 (fun c => encode (f c)) := by
  intro c d hc hd s t same
  obtain ⟨values, rests⟩ := code (maps c hc) (maps d hd) same
  exact ⟨injective c d hc hd values, rests⟩

theorem SelfDelimiting.pair (code : SelfDelimiting ok encode) (code' : SelfDelimiting ok' encode') :
    SelfDelimiting (fun p : α × β => ok p.1 ∧ ok' p.2) (fun p => encode p.1 ++ encode' p.2) := by
  rintro ⟨a, b⟩ ⟨c, d⟩ ⟨ha, hb⟩ ⟨hc, hd⟩ s t same
  simp only [List.append_assoc] at same
  obtain ⟨rfl, tail⟩ := code ha hc same
  obtain ⟨rfl, rest⟩ := code' hb hd tail
  exact ⟨rfl, rest⟩

/-- The second code may depend on what the first one wrote. -/
theorem SelfDelimiting.dependent {body : β → List δ} (head : β → α)
    (code : SelfDelimiting ok encode) (heads : ∀ b, ok' b → ok (head b))
    (bodies : ∀ a, ok a → SelfDelimiting (fun b => ok' b ∧ head b = a) body) :
    SelfDelimiting ok' (fun b => encode (head b) ++ body b) := by
  intro b d hb hd s t same
  simp only [List.append_assoc] at same
  obtain ⟨heading, same⟩ := code (heads b hb) (heads d hd) same
  exact bodies (head b) (heads b hb) ⟨hb, rfl⟩ ⟨hd, heading.symm⟩ same

theorem SelfDelimiting.flatMap_of_length (code : SelfDelimiting ok encode) (n : Nat) :
    SelfDelimiting (fun l : List α => (∀ a ∈ l, ok a) ∧ l.length = n)
      (fun l => l.flatMap encode) := by
  intro l
  induction l generalizing n with
  | nil =>
    rintro l' ⟨-, rfl⟩ ⟨-, none⟩ s t same
    obtain rfl := List.eq_nil_of_length_eq_zero none
    exact ⟨rfl, same⟩
  | cons a l ih =>
    rintro l' ⟨all, rfl⟩ ⟨all', length⟩ s t same
    cases l' with
    | nil => cases length
    | cons b l' =>
      simp only [List.flatMap_cons, List.append_assoc] at same
      obtain ⟨rfl, tail⟩ := code (all a List.mem_cons_self) (all' b List.mem_cons_self) same
      obtain ⟨rfl, rest⟩ := ih l.length ⟨fun c h => all c (List.mem_cons_of_mem _ h), rfl⟩
        ⟨fun c h => all' c (List.mem_cons_of_mem _ h), Nat.succ.inj length⟩ tail
      exact ⟨rfl, rest⟩

/-- A list behind its length. -/
theorem SelfDelimiting.counted (counts : SelfDelimiting okCount count)
    (code : SelfDelimiting ok encode) :
    SelfDelimiting (fun l : List α => okCount l.length ∧ ∀ a ∈ l, ok a)
      (fun l => count l.length ++ l.flatMap encode) :=
  counts.dependent List.length (fun _ held => held.1) fun n _ =>
    (code.flatMap_of_length n).mono fun _ held => ⟨held.1.2, held.2⟩

/-- A list of units behind its length. -/
theorem SelfDelimiting.countedUnits (counts : SelfDelimiting okCount count) :
    SelfDelimiting (fun l : List δ => okCount l.length) (fun l => count l.length ++ l) :=
  counts.dependent List.length (fun _ held => held) fun _ _ =>
    selfDelimiting_of_width (fun _ held => held.2) fun _ _ _ _ same => same

/-- The first unit tells the alternative. -/
theorem selfDelimiting_tagged (tag : α → δ) (body : α → List δ)
    (bodies : ∀ d, SelfDelimiting (fun a => ok a ∧ tag a = d) body) :
    SelfDelimiting ok (fun a => tag a :: body a) := by
  intro a b ha hb s t same
  obtain ⟨tags, same⟩ := List.cons.inj same
  exact bodies (tag a) ⟨ha, rfl⟩ ⟨hb, tags.symm⟩ same

/-- Words of one length need no count. -/
theorem flatMap_injective (positive : 0 < w) (width : ∀ a, (encode a).length = w)
    (injective : ∀ a b, encode a = encode b → a = b) {l l' : List α}
    (same : l.flatMap encode = l'.flatMap encode) : l = l' := by
  have length : ∀ l : List α, (l.flatMap encode).length = l.length * w := by
    intro l
    induction l with
    | nil => simp
    | cons a l ih => rw [List.flatMap_cons, List.length_append, width, ih, List.length_cons,
        Nat.succ_mul, Nat.add_comm]
  have lengths : l.length = l'.length := by
    apply Nat.eq_of_mul_eq_mul_right positive
    rw [← length, ← length, same]
  have code : SelfDelimiting (fun _ => True) encode :=
    selfDelimiting_of_width (fun a _ => width a) fun a b _ _ => injective a b
  exact (code.flatMap_of_length l.length).injective ⟨fun _ _ => trivial, rfl⟩
    ⟨fun _ _ => trivial, lengths.symm⟩ same

end Rules

end GalaxDb.Codes
