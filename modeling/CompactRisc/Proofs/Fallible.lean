import Mathlib.Data.List.Forall2

/-!
# Computations that may fail

How a computation in `Except` comes to succeed: a sequence of steps succeeds if each step does,
and a step on every element of a list succeeds if it does on each of them. The results of such a
step correspond to the list element by element.
-/
namespace CompactRisc

variable {ε α β : Type}

@[simp] theorem ok_bind (a : α) (f : α → Except ε β) : (Except.ok a >>= f) = f a := rfl

@[simp] theorem error_bind (e : ε) (f : α → Except ε β) :
    ((Except.error e : Except ε α) >>= f) = .error e := rfl

@[simp] theorem pure_eq_ok (a : α) : (pure a : Except ε α) = .ok a := rfl

theorem bind_eq_ok {x : Except ε α} {f : α → Except ε β} {b : β} :
    x >>= f = .ok b ↔ ∃ a, x = .ok a ∧ f a = .ok b := by
  cases x with
  | error e => simp
  | ok a => simp

theorem map_eq_ok {x : Except ε α} {f : α → β} {b : β} :
    f <$> x = .ok b ↔ ∃ a, x = .ok a ∧ f a = b := by
  cases x with
  | error e => simp
  | ok a => simp

theorem exists_ok_of_isOk {x : Except ε α} (h : x.isOk = true) : ∃ a, x = .ok a := by
  cases x with
  | error e => cases h
  | ok a => exact ⟨a, rfl⟩

theorem mapM_eq_ok {f : α → Except ε β} :
    ∀ {as : List α} {bs : List β},
      as.mapM f = .ok bs ↔ List.Forall₂ (fun a b => f a = .ok b) as bs
  | [], bs => by
    rw [List.mapM_nil, List.forall₂_nil_left_iff, pure_eq_ok, Except.ok.injEq]
    exact eq_comm
  | a :: as, bs => by
    rw [List.mapM_cons, List.forall₂_cons_left_iff, bind_eq_ok]
    refine ⟨fun h => ?_, fun h => ?_⟩
    · obtain ⟨b, hb, h⟩ := h
      obtain ⟨bs', hbs, h⟩ := bind_eq_ok.1 h
      cases h
      exact ⟨b, bs', hb, mapM_eq_ok.1 hbs, rfl⟩
    · obtain ⟨b, bs', hb, hbs, rfl⟩ := h
      exact ⟨b, hb, bind_eq_ok.2 ⟨bs', mapM_eq_ok.2 hbs, rfl⟩⟩

theorem exists_mapM_eq_ok {f : α → Except ε β} {as : List α} :
    (∃ bs, as.mapM f = .ok bs) ↔ ∀ a ∈ as, ∃ b, f a = .ok b := by
  induction as with
  | nil => simp
  | cons a as ih =>
    rw [List.forall_mem_cons, ← ih]
    refine ⟨fun h => ?_, fun h => ?_⟩
    · obtain ⟨bs, h⟩ := h
      rw [mapM_eq_ok, List.forall₂_cons_left_iff] at h
      obtain ⟨b, bs', hb, hbs, -⟩ := h
      exact ⟨⟨b, hb⟩, bs', mapM_eq_ok.2 hbs⟩
    · obtain ⟨⟨b, hb⟩, bs, hbs⟩ := h
      exact ⟨b :: bs, mapM_eq_ok.2 (.cons hb (mapM_eq_ok.1 hbs))⟩

theorem mapM_eq_ok_map {f : α → Except ε β} {g : α → β} {as : List α}
    (h : ∀ a ∈ as, f a = .ok (g a)) : as.mapM f = .ok (as.map g) := by
  rw [mapM_eq_ok, List.forall₂_map_right_iff, List.forall₂_same]
  exact h

theorem foldlM_eq_ok_self {step : β → α → Except ε β} {b : β} {as : List α}
    (h : ∀ a ∈ as, step b a = .ok b) : as.foldlM step b = .ok b := by
  induction as with
  | nil => rfl
  | cons a as ih =>
    rw [List.foldlM_cons, h a List.mem_cons_self, ok_bind]
    exact ih fun a' ha' => h a' (List.mem_cons_of_mem _ ha')

/-- Steps that succeed when others do lead to the same end. -/
theorem foldlM_mono {step : β → α → Except ε β} (step' : β → α → Except ε β) {b b' : β}
    {as : List α} (hstep : ∀ b a b', step b a = .ok b' → step' b a = .ok b')
    (h : as.foldlM step b = .ok b') : as.foldlM step' b = .ok b' := by
  induction as generalizing b with
  | nil => exact h
  | cons a as ih =>
    rw [List.foldlM_cons] at h ⊢
    obtain ⟨c, hc, h⟩ := bind_eq_ok.1 h
    exact bind_eq_ok.2 ⟨c, hstep b a c hc, ih h⟩

/-! ## Refusals -/

/-- The error that a computation ends in, if it ends in one. -/
def refusal? : Except ε α → Option ε
  | .error e => some e
  | .ok _ => none

@[simp] theorem refusal?_error (e : ε) : refusal? (.error e : Except ε α) = some e := rfl

@[simp] theorem refusal?_ok (a : α) : refusal? (.ok a : Except ε α) = none := rfl

theorem refusal?_eq_some {x : Except ε α} {e : ε} : refusal? x = some e ↔ x = .error e := by
  cases x <;> simp

theorem refusal?_eq_none {x : Except ε α} : refusal? x = none ↔ ∃ a, x = .ok a := by
  cases x <;> simp

@[simp] theorem refusal?_map (f : α → β) (x : Except ε α) : refusal? (f <$> x) = refusal? x := by
  cases x <;> rfl

/-- A step on every element of a list is refused for the first element on which it is. -/
theorem refusal?_mapM (f : α → Except ε β) (as : List α) :
    refusal? (as.mapM f) = as.findSome? fun a => refusal? (f a) := by
  induction as with
  | nil => rfl
  | cons a as ih =>
    rw [List.mapM_cons, List.findSome?_cons]
    cases ha : f a with
    | error e => rfl
    | ok b =>
      rw [refusal?_ok, ok_bind, ← ih]
      cases as.mapM f <;> rfl

/-! ## Lists that correspond element by element -/

section Forall₂

variable {γ : Type} {R : α → β → Prop} {as : List α} {bs : List β}

theorem map_eq_of_forall₂ {f : α → γ} {g : β → γ} (h : List.Forall₂ R as bs)
    (hfg : ∀ a b, R a b → g b = f a) : bs.map g = as.map f := by
  induction h with
  | nil => rfl
  | cons hab _ ih => rw [List.map_cons, List.map_cons, hfg _ _ hab, ih]

theorem map_eq_zipWith_of_forall₂ {f : α → γ} {g : α → β → γ}
    (h : List.Forall₂ (fun a b => f a = g a b) as bs) : as.map f = List.zipWith g as bs := by
  induction h with
  | nil => rfl
  | cons hab _ ih => rw [List.map_cons, List.zipWith_cons_cons, hab, ih]

theorem getElem?_right_of_forall₂ (h : List.Forall₂ R as bs) {k : Nat} {a : α}
    (ha : as[k]? = some a) : ∃ b, bs[k]? = some b ∧ R a b := by
  obtain ⟨hk, rfl⟩ := List.getElem?_eq_some_iff.1 ha
  have hk' : k < bs.length := by rw [← h.length_eq]; exact hk
  exact ⟨bs[k], List.getElem?_eq_getElem hk', h.get hk hk'⟩

theorem getElem?_left_of_forall₂ (h : List.Forall₂ R as bs) {k : Nat} {b : β}
    (hb : bs[k]? = some b) : ∃ a, as[k]? = some a ∧ R a b :=
  getElem?_right_of_forall₂ (R := flip R) h.flip hb

theorem exists_left_of_forall₂ (h : List.Forall₂ R as bs) {b : β} (hb : b ∈ bs) :
    ∃ a ∈ as, R a b := by
  obtain ⟨k, hk⟩ := List.getElem?_of_mem hb
  obtain ⟨a, ha, hab⟩ := getElem?_left_of_forall₂ h hk
  exact ⟨a, List.mem_of_getElem? ha, hab⟩

end Forall₂

end CompactRisc
