/-!
# Steps that succeed

A step reads and writes a state and can fail. `Yields m s x s'` says that step `m` takes state `s`
to `s'` without failing and gives `x`. There is one rule for each way in which steps are put
together, so that a step that succeeded can be taken apart from the outside in. Rebuilding a graph
and running the stages of a pipeline are both written with such steps.
-/

namespace Flowgraph

variable {ε σ α β : Type} {s s' : σ}

/-- The step `m` takes state `s` to `s'` and gives `x`. -/
def Yields (m : ExceptT ε (StateM σ) α) (s : σ) (x : α) (s' : σ) : Prop := m.run s = (.ok x, s')

/-- A step has one result. -/
theorem Yields.unique {m : ExceptT ε (StateM σ) α} {x y : α} {s₁ s₂ : σ} (h : Yields m s x s₁)
    (h' : Yields m s y s₂) : x = y ∧ s₁ = s₂ := by
  have heq := h.symm.trans h'
  rw [Prod.mk.injEq, Except.ok.injEq] at heq
  exact heq

@[simp] theorem yields_pure {x y : α} :
    Yields (pure x : ExceptT ε (StateM σ) α) s y s' ↔ y = x ∧ s' = s := by
  constructor
  · intro h
    cases h
    exact ⟨rfl, rfl⟩
  · rintro ⟨rfl, rfl⟩
    rfl

theorem yields_bind {m : ExceptT ε (StateM σ) α} {f : α → ExceptT ε (StateM σ) β} {y : β} :
    Yields (m >>= f) s y s' ↔ ∃ x s₁, Yields m s x s₁ ∧ Yields (f x) s₁ y s' := by
  have hbind : (m >>= f).run s = (ExceptT.bindCont f (m.run s).1) (m.run s).2 := rfl
  simp only [Yields, hbind]
  rcases m.run s with ⟨r, s₁⟩
  cases r with
  | error e =>
    constructor
    · intro h
      cases h
    · rintro ⟨x, s₂, h, -⟩
      cases h
  | ok x =>
    constructor
    · exact fun h ↦ ⟨x, s₁, rfl, h⟩
    · rintro ⟨x', s₂, h, h'⟩
      cases h
      exact h'

@[simp] theorem yields_get {x : σ} :
    Yields (get : ExceptT ε (StateM σ) σ) s x s' ↔ x = s ∧ s' = s := by
  constructor
  · intro h
    cases h
    exact ⟨rfl, rfl⟩
  · rintro ⟨rfl, rfl⟩
    rfl

@[simp] theorem yields_set {t : σ} {u : PUnit} :
    Yields (set t : ExceptT ε (StateM σ) PUnit) s u s' ↔ s' = t := by
  constructor
  · intro h
    cases h
    rfl
  · rintro rfl
    rfl

@[simp] theorem yields_modify {f : σ → σ} {u : PUnit} :
    Yields (modify f : ExceptT ε (StateM σ) PUnit) s u s' ↔ s' = f s := by
  constructor
  · intro h
    cases h
    rfl
  · rintro rfl
    rfl

@[simp] theorem not_yields_throw {e : ε} {x : α} :
    ¬Yields (throw e : ExceptT ε (StateM σ) α) s x s' := nofun

theorem yields_forM_nil {f : α → ExceptT ε (StateM σ) PUnit} {u : PUnit} :
    Yields ([].forM f) s u s' ↔ s' = s := by
  change Yields (pure ⟨⟩) s u s' ↔ s' = s
  simp

theorem yields_forM_cons {f : α → ExceptT ε (StateM σ) PUnit} {x : α} {l : List α} {u : PUnit} :
    Yields ((x :: l).forM f) s u s' ↔ ∃ s₁, Yields (f x) s ⟨⟩ s₁ ∧ Yields (l.forM f) s₁ ⟨⟩ s' := by
  change Yields (f x >>= fun _ ↦ l.forM f) s u s' ↔ _
  rw [yields_bind]
  exact ⟨fun ⟨_, s₁, h, h'⟩ ↦ ⟨s₁, h, h'⟩, fun ⟨s₁, h, h'⟩ ↦ ⟨_, s₁, h, h'⟩⟩

/-- A step that leaves the state alone, repeated over a list. The statement about what was gone
through so far is carried along. -/
theorem foldlM_of_yields {f : β → α → ExceptT ε (StateM σ) β} {P : List α → β → Prop}
    (hstep : ∀ {done x y y' s₁}, P done y → Yields (f y x) s y' s₁ → s₁ = s ∧ P (done ++ [x]) y') :
    ∀ {l done : List α} {y y' : β}, P done y → Yields (l.foldlM f y) s y' s' →
      s' = s ∧ P (done ++ l) y'
  | [], done, y, y', hy, h => by
    rw [List.foldlM_nil, yields_pure] at h
    obtain ⟨rfl, rfl⟩ := h
    rw [List.append_nil]
    exact ⟨rfl, hy⟩
  | x :: l, done, y, y', hy, h => by
    rw [List.foldlM_cons, yields_bind] at h
    obtain ⟨y₁, s₁, h₁, h⟩ := h
    obtain ⟨hs₁, hy₁⟩ := hstep hy h₁
    rw [hs₁] at h
    rw [List.append_cons]
    exact foldlM_of_yields hstep hy₁ h

/-- Steps over a list that leave the state alone and each succeed, given what was gone through so
far. -/
theorem exists_foldlM {f : β → α → ExceptT ε (StateM σ) β} {P : List α → β → Prop}
    {all : List α} (hstep : ∀ {done rest x y}, all = done ++ x :: rest → P done y →
      ∃ y', Yields (f y x) s y' s ∧ P (done ++ [x]) y') :
    ∀ {l done : List α} {y : β}, all = done ++ l → P done y →
      ∃ y', Yields (l.foldlM f y) s y' s ∧ P all y'
  | [], done, y, hall, hy => by
    rw [List.append_nil] at hall
    exact ⟨y, by rw [List.foldlM_nil, yields_pure]; exact ⟨rfl, rfl⟩, hall ▸ hy⟩
  | x :: l, done, y, hall, hy => by
    obtain ⟨y₁, h₁, hy₁⟩ := hstep hall hy
    obtain ⟨y', h', hy'⟩ := exists_foldlM hstep (hall.trans (List.append_cons _ _ _)) hy₁
    exact ⟨y', by rw [List.foldlM_cons, yields_bind]; exact ⟨y₁, s, h₁, h'⟩, hy'⟩

/-- What every step over a list keeps, all of them together keep. -/
theorem forM_keeps {f : α → ExceptT ε (StateM σ) PUnit} {P : σ → Prop} : ∀ {l : List α}
    {s s' : σ} {u : PUnit}, (∀ x ∈ l, ∀ {s s'}, P s → Yields (f x) s ⟨⟩ s' → P s') →
    P s → Yields (l.forM f) s u s' → P s'
  | [], s, s', u, _, hs, h => by
    rw [yields_forM_nil.mp h]
    exact hs
  | x :: l, s, s', u, hstep, hs, h => by
    obtain ⟨s₁, h₁, h⟩ := yields_forM_cons.mp h
    exact forM_keeps (fun y hy ↦ hstep y (List.mem_cons_of_mem x hy))
      (hstep x List.mem_cons_self hs h₁) h

/-- Steps over a list can be taken in another way that does the same on the states that occur. -/
theorem forM_of_yields {f f' : α → ExceptT ε (StateM σ) PUnit} {P : σ → Prop} : ∀ {l : List α}
    {s s' : σ} {u : PUnit},
    (∀ x ∈ l, ∀ {s s'}, P s → Yields (f x) s ⟨⟩ s' → Yields (f' x) s ⟨⟩ s' ∧ P s') →
    P s → Yields (l.forM f) s u s' → Yields (l.forM f') s u s' ∧ P s'
  | [], s, s', u, _, hs, h => by
    obtain rfl := yields_forM_nil.mp h
    exact ⟨yields_forM_nil.mpr rfl, hs⟩
  | x :: l, s, s', u, hstep, hs, h => by
    obtain ⟨s₁, h₁, h⟩ := yields_forM_cons.mp h
    obtain ⟨h₁', hs₁⟩ := hstep x List.mem_cons_self hs h₁
    obtain ⟨h', hs'⟩ := forM_of_yields (fun y hy ↦ hstep y (List.mem_cons_of_mem x hy)) hs₁ h
    exact ⟨yields_forM_cons.mpr ⟨s₁, h₁', h'⟩, hs'⟩

end Flowgraph
