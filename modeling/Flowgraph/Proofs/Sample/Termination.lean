import Flowgraph.Proofs.Sample.Shapes

/-!
# The generator ends by itself

The generator is written with two bounds: a depth for regions inside each other, and a patience for
choices that pass over words. Neither of them is felt. A construct takes one unit of the budget
before it draws its regions, so that the depth is never used up if it is larger than the budget; and
a choice ends at the first word that is not zero.

Two generators `Agree` up to a budget if they do the same in every state with such a budget, and do
not raise it.
-/

namespace Flowgraph.Structured

namespace Gen

variable {α β : Type} {k : Nat} {source source' : Source} {s : State}

/-- Both steps do the same in states with a budget of up to `k`, and do not raise it above `k`. -/
def Agree (k : Nat) (x y : Gen α) : Prop :=
  ∀ s : State, s.budget ≤ k → x.run s = y.run s ∧ (x.run s).2.budget ≤ k

theorem Agree.bind {x y : Gen α} {f g : α → Gen β} (h : Agree k x y)
    (hnext : ∀ a, Agree k (f a) (g a)) : Agree k (x >>= f) (y >>= g) := by
  intro s hs
  obtain ⟨heq, hle⟩ := h s hs
  change (f (x.run s).1).run (x.run s).2 = (g (y.run s).1).run (y.run s).2 ∧
    ((f (x.run s).1).run (x.run s).2).2.budget ≤ k
  rw [← heq]
  exact hnext _ _ hle

/-- A step that leaves the budget alone agrees with itself. -/
theorem agree_self {x : Gen α} (hbudget : ∀ s, (x.run s).2.budget = s.budget) : Agree k x x :=
  fun s hs ↦ ⟨rfl, (hbudget s).trans_le hs⟩

/-! ## Choices

A choice out of three passes over the word zero, since otherwise one of the choices would stand for
one word more than the others. The next word that is not zero decides. -/

private theorem agree_four (hword : source'.word = source.word) (k : Nat) :
    Agree k (four source) (four source') := by
  refine fun s hs ↦ ⟨?_, hs⟩
  change ((source.word s.used).toNat % 4, _) = ((source'.word s.used).toNat % 4, _)
  rw [hword]

/-- The product with three leaves no remainder for the word zero only. -/
private theorem mul_three_mod (w : UInt64) : w.toNat * 3 % 0x10000000000000000 = 0 ↔ w = 0 := by
  have hlt : w.toNat < 0x10000000000000000 := w.toNat_lt
  rw [← UInt64.toNat_inj, UInt64.toNat_zero, ← Nat.dvd_iff_mod_eq_zero]
  constructor
  · intro h
    have hcoprime : Nat.Coprime 0x10000000000000000 3 := rfl
    exact Nat.eq_zero_of_dvd_of_lt (hcoprime.dvd_of_dvd_mul_right h) hlt
  · intro h
    rw [h, Nat.zero_mul]
    exact Nat.dvd_zero _

theorem run_threeWithin_succ (attempts : Nat) (s : State) :
    (threeWithin source (attempts + 1)).run s =
      (if source.word s.used = 0 then threeWithin source attempts
        else pure ((source.word s.used).toNat * 3 / 0x10000000000000000)).run
          { s with used := s.used + 1 } := by
  have h : (threeWithin source (attempts + 1)).run s =
      (if (source.word s.used).toNat * 3 % 0x10000000000000000 = 0 then threeWithin source attempts
        else pure ((source.word s.used).toNat * 3 / 0x10000000000000000)).run
          { s with used := s.used + 1 } := rfl
  rw [h]
  simp only [mul_three_mod]

private theorem run_threeWithin_of_ne_zero (h : source.word s.used ≠ 0) (attempts : Nat) :
    (threeWithin source attempts).run s =
      ((source.word s.used).toNat * 3 / 0x10000000000000000, { s with used := s.used + 1 }) := by
  cases attempts with
  | zero => rfl
  | succ attempts =>
    rw [run_threeWithin_succ, if_neg h]
    rfl

/-- All attempts beyond the next word that is not zero are of no use. -/
private theorem run_threeWithin_congr (hword : source'.word = source.word)
    {attempts attempts' : Nat} (h : source.word (s.used + attempts) ≠ 0)
    (h' : source.word (s.used + attempts') ≠ 0) :
    (threeWithin source attempts).run s = (threeWithin source' attempts').run s ∧
      ((threeWithin source attempts).run s).2.budget = s.budget := by
  induction attempts generalizing attempts' s with
  | zero =>
    rw [Nat.add_zero] at h
    rw [run_threeWithin_of_ne_zero h, run_threeWithin_of_ne_zero (hword ▸ h), hword]
    exact ⟨rfl, rfl⟩
  | succ attempts ih =>
    by_cases hzero : source.word s.used = 0
    · cases attempts' with
      | zero => exact absurd hzero h'
      | succ attempts' =>
        rw [run_threeWithin_succ, run_threeWithin_succ, hword, if_pos hzero, if_pos hzero]
        refine ih ?_ ?_
        · rwa [Nat.add_right_comm]
        · rwa [Nat.add_right_comm]
    · rw [run_threeWithin_of_ne_zero hzero, run_threeWithin_of_ne_zero (hword ▸ hzero), hword]
      exact ⟨rfl, rfl⟩

private theorem agree_three (hword : source'.word = source.word) (k : Nat) :
    Agree k (three source) (three source') := by
  intro s hs
  have h' := source'.word_ne_zero s.used
  rw [hword] at h'
  obtain ⟨heq, hbudget⟩ := run_threeWithin_congr hword (source.word_ne_zero s.used) h'
  exact ⟨heq, hbudget.trans_le hs⟩

/-! ## Regions

A region is drawn with a budget that is smaller than that of the construct around it, so that the
depth is not felt. -/

variable {region region' : BlockIndex → Gen BlockIndex}

private theorem agree_construct (hword : source'.word = source.word)
    (h : ∀ a, Agree k (region a) (region' a)) (cur : BlockIndex) :
    Agree k (construct source region cur) (construct source' region' cur) := by
  have hblock : Agree k newBlock newBlock := agree_self fun _ ↦ rfl
  have hconnect : ∀ b ts, Agree k (connect b ts) (connect b ts) := fun _ _ ↦ agree_self fun _ ↦ rfl
  have hopen : ∀ b, Agree k (openLoop b) (openLoop b) := fun _ ↦ agree_self fun _ ↦ rfl
  have hclose : Agree k closeLoop closeLoop := agree_self fun _ ↦ rfl
  have hend : ∀ b : BlockIndex, Agree k (pure b) (pure b) := fun _ ↦ agree_self fun _ ↦ rfl
  refine (agree_four hword k).bind fun choice ↦ ?_
  split
  · refine hblock.bind fun t ↦ hblock.bind fun f ↦ (hconnect _ _).bind fun _ ↦ ?_
    refine (h t).bind fun tEnd ↦ (h f).bind fun fEnd ↦ hblock.bind fun join ↦ ?_
    exact (hconnect _ _).bind fun _ ↦ (hconnect _ _).bind fun _ ↦ hend join
  · refine hblock.bind fun header ↦ (hconnect _ _).bind fun _ ↦ (hopen header).bind fun _ ↦ ?_
    refine hblock.bind fun body ↦ (h body).bind fun bodyEnd ↦ (hconnect _ _).bind fun _ ↦ ?_
    exact hclose.bind fun _ ↦ hblock.bind fun exit ↦ (hconnect _ _).bind fun _ ↦ hend exit
  · refine hblock.bind fun header ↦ (hconnect _ _).bind fun _ ↦ (hopen header).bind fun _ ↦ ?_
    refine (h header).bind fun bodyEnd ↦ hclose.bind fun _ ↦ hblock.bind fun exit ↦ ?_
    exact (hconnect _ _).bind fun _ ↦ hend exit
  · exact hblock.bind fun next ↦ (hconnect _ _).bind fun _ ↦ hend next

private theorem run_constructs_of_spent (h : s.budget = 0) (count : Nat) (cur : BlockIndex) :
    (constructs source region (count + 1) cur).run s = (cur, s) := by
  change (if s.budget = 0 then pure cur else _ : Gen BlockIndex).run s = _
  rw [if_pos h]
  rfl

private theorem run_constructs_of_ne_zero (h : s.budget ≠ 0) (count : Nat) (cur : BlockIndex) :
    (constructs source region (count + 1) cur).run s =
      (construct source region cur >>= constructs source region count).run
        { s with budget := s.budget - 1 } := by
  change (if s.budget = 0 then pure cur else _ : Gen BlockIndex).run s = _
  rw [if_neg h]
  rfl

/-- A construct begins with a smaller budget, so that regions need to agree up to smaller budgets
only. -/
private theorem agree_constructs (hword : source'.word = source.word)
    (h : ∀ j < k, ∀ a, Agree j (region a) (region' a)) (count : Nat) (cur : BlockIndex) :
    Agree k (constructs source region count cur) (constructs source' region' count cur) := by
  induction count generalizing cur with
  | zero => exact agree_self fun _ ↦ rfl
  | succ count ih =>
    intro s hs
    by_cases hzero : s.budget = 0
    · rw [run_constructs_of_spent hzero, run_constructs_of_spent hzero]
      exact ⟨rfl, hs⟩
    · -- the construct itself runs with one unit less
      rw [run_constructs_of_ne_zero hzero, run_constructs_of_ne_zero hzero]
      obtain ⟨heq, hle⟩ := agree_construct hword (h (s.budget - 1) (by omega)) cur
        { s with budget := s.budget - 1 } (Nat.le_refl _)
      rw [StateT.run_bind, StateT.run_bind, ← heq]
      exact ih _ _ (by omega)

private theorem agree_region (hword : source'.word = source.word) {depth depth' : Nat}
    (h : k < depth) (h' : k < depth') (cur : BlockIndex) :
    Agree k (Gen.region source depth cur) (Gen.region source' depth' cur) := by
  induction k using Nat.strongRecOn generalizing depth depth' cur with
  | _ k ih =>
    obtain ⟨depth, rfl⟩ := Nat.exists_eq_add_one_of_ne_zero (Nat.ne_zero_of_lt h)
    obtain ⟨depth', rfl⟩ := Nat.exists_eq_add_one_of_ne_zero (Nat.ne_zero_of_lt h')
    refine (agree_three hword k).bind fun count ↦ ?_
    exact agree_constructs hword (fun j hj ↦ ih j hj (by omega) (by omega)) (count + 1) cur

end Gen

/-- Every depth above the budget gives the same, and it does so for all sources of these words. -/
theorem generateWithin_congr {source source' : Source} (hword : source'.word = source.word)
    {depth depth' budget : Nat} (h : budget < depth) (h' : budget < depth') :
    generateWithin source' depth' budget = generateWithin source depth budget := by
  have hblock : Gen.Agree budget Gen.newBlock Gen.newBlock := Gen.agree_self fun _ ↦ rfl
  have hrun := hblock.bind fun entry ↦ Gen.agree_region hword h h' entry
  exact congrArg (fun r ↦ r.2.generated) (hrun (.start budget) (Nat.le_refl budget)).1.symm

end Flowgraph.Structured
