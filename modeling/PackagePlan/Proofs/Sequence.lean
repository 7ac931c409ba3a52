/-! # Steps that may fail

A sequence of steps comes to its end only if each of its steps does. What each
step ensures of its result or of its error the sequence ensures. Where the
steps report whether they changed anything, a sequence that reports no change
has changed nothing.
-/

namespace PackagePlan

universe u v w

section

variable {ε : Type u} {α : Type v} {β : Type v} {δ : Type w}

theorem bind_eq_ok_iff {x : Except ε α} {f : α → Except ε β} {b : β} :
    (x >>= f) = .ok b ↔ ∃ a, x = .ok a ∧ f a = .ok b := by
  cases x <;> simp [bind, Except.bind]

theorem map_eq_ok_iff {x : Except ε α} {f : α → β} {b : β} :
    f <$> x = .ok b ↔ ∃ a, x = .ok a ∧ f a = b := by
  cases x <;> simp [Functor.map, Except.map]

theorem mapM_eq_ok_iff {f : α → Except ε β} {l : List α} {bs : List β} :
    l.mapM f = .ok bs ↔ l.map f = bs.map .ok := by
  induction l generalizing bs with
  | nil => cases bs <;> simp [pure, Except.pure]
  | cons a l ih =>
    simp only [List.mapM_cons, bind_eq_ok_iff, ih]
    cases bs with
    | nil => simp [pure, Except.pure]
    | cons b bs =>
      simp only [List.map_cons, List.cons.injEq, pure, Except.pure, Except.ok.injEq]
      constructor
      · rintro ⟨b', hb, bs', hbs, rfl, rfl⟩
        exact ⟨hb, hbs⟩
      · rintro ⟨hb, hbs⟩
        exact ⟨b, hb, bs, hbs, rfl, rfl⟩

theorem exists_ok_of_mem {f : α → Except ε β} {l : List α} {bs : List β} {a : α}
    (h : l.map f = bs.map .ok) (ha : a ∈ l) : ∃ b, f a = .ok b := by
  have hmem := List.mem_map_of_mem (f := f) ha
  rw [h] at hmem
  obtain ⟨b, -, hb⟩ := List.mem_map.1 hmem
  exact ⟨b, hb.symm⟩

theorem foldlM_cons_eq_ok_iff {f : β → δ → Except ε β} {a : δ} {l : List δ} {b b' : β} :
    (a :: l).foldlM f b = .ok b' ↔ ∃ b₁, f b a = .ok b₁ ∧ l.foldlM f b₁ = .ok b' := by
  rw [List.foldlM_cons, bind_eq_ok_iff]

theorem foldlM_eq_foldl {f : β → δ → Except ε β} {read? : δ → Option α} {add : β → α → β}
    (hf : ∀ b a b', f b a = .ok b' → ∃ x, read? a = some x ∧ b' = add b x) {l : List δ} {b b' : β}
    (h : l.foldlM f b = .ok b') : b' = (l.filterMap read?).foldl add b := by
  induction l generalizing b with
  | nil =>
    cases h
    rfl
  | cons a l ih =>
    obtain ⟨b₁, h₁, h⟩ := foldlM_cons_eq_ok_iff.1 h
    obtain ⟨x, hx, rfl⟩ := hf b a b₁ h₁
    rw [List.filterMap_cons_some hx, List.foldl_cons]
    exact ih h

theorem exists_eq_ok {x : Except ε α} {f : α → Bool} (h : x.toOption.any f = true) :
    ∃ a, x = .ok a ∧ f a = true := by
  cases x with
  | ok a => exact ⟨a, rfl, h⟩
  | error e => cases h

theorem exists_ok_of_map {x : Except ε α} {f : α → β} {b : β}
    (h : x.toOption.map f = some b) : ∃ a, x = .ok a ∧ f a = b := by
  cases x with
  | ok a => exact ⟨a, rfl, Option.some.inj h⟩
  | error e => cases h

/-- The result satisfies `P`; where there is none, the error satisfies `E`. -/
def Ensures (x : Except ε α) (P : α → Prop) (E : ε → Prop) : Prop :=
  match x with
  | .ok a => P a
  | .error e => E e

theorem ensures_of_ok {x : Except ε α} {P : α → Prop} (h : ∀ a, x = .ok a → P a) :
    Ensures x P fun _ => True := by
  cases x with
  | ok a => exact h a rfl
  | error e => trivial

namespace Ensures

variable {x : Except ε α} {P : α → Prop} {Q : β → Prop} {E : ε → Prop}

theorem of_ok {a : α} (hx : Ensures x P E) (h : x = .ok a) : P a := by
  rw [h] at hx
  exact hx

theorem of_error {e : ε} (hx : Ensures x P E) (h : x = .error e) : E e := by
  rw [h] at hx
  exact hx

theorem imp_of_ok {Q : α → Prop} (hx : Ensures x P E) (h : ∀ a, x = .ok a → P a → Q a) :
    Ensures x Q E := by
  cases x with
  | ok a => exact h a rfl hx
  | error e => exact hx

theorem imp_of_error {E' : ε → Prop} (hx : Ensures x P E) (h : ∀ e, E e → E' e) :
    Ensures x P E' := by
  cases x with
  | ok a => exact hx
  | error e => exact h e hx

theorem bind {f : α → Except ε β} (hx : Ensures x P E) (hf : ∀ a, P a → Ensures (f a) Q E) :
    Ensures (x >>= f) Q E := by
  cases x with
  | ok a => exact hf a hx
  | error e => exact hx

theorem map {f : α → β} (hx : Ensures x P E) (hf : ∀ a, P a → Q (f a)) :
    Ensures (f <$> x) Q E := by
  cases x with
  | ok a => exact hf a hx
  | error e => exact hx

theorem foldlM {f : β → δ → Except ε β} {l : List δ}
    (step : ∀ a ∈ l, ∀ b, Q b → Ensures (f b a) Q E) {b : β} (hb : Q b) :
    Ensures (l.foldlM f b) Q E := by
  induction l generalizing b with
  | nil => exact hb
  | cons a l ih =>
    rw [List.foldlM_cons]
    exact (step a (.head _) b hb).bind fun b' hb' => ih (fun a ha => step a (.tail _ ha)) hb'

end Ensures

end

theorem foldlM_unchanged {ε : Type u} {β : Type v} {δ : Type w}
    {f : β × Bool → δ → Except ε (β × Bool)} {Q : β → δ → Prop}
    (step : ∀ b changed a b', f (b, changed) a = .ok (b', false) →
      changed = false ∧ b' = b ∧ Q b a)
    {l : List δ} {b b' : β} {changed : Bool} (h : l.foldlM f (b, changed) = .ok (b', false)) :
    changed = false ∧ b' = b ∧ ∀ a ∈ l, Q b a := by
  induction l generalizing b changed with
  | nil => cases h; simp
  | cons a l ih =>
    obtain ⟨⟨b₁, changed₁⟩, h₁, h⟩ := foldlM_cons_eq_ok_iff.1 h
    obtain ⟨rfl, rfl, hl⟩ := ih h
    obtain ⟨rfl, rfl, ha⟩ := step _ _ _ _ h₁
    exact ⟨rfl, rfl, List.forall_mem_cons.2 ⟨ha, hl⟩⟩

end PackagePlan
