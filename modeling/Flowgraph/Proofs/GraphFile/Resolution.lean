import Flowgraph.Proofs.GraphFile.Totality

/-!
# Names and what they denote

A textual graph is read exactly if it is well named: labels and values are told apart by their
names, the words in it are known, every reference is the name of something, and every block ends in
its only terminator. What comes out then has one operation for each entry, in the order of the file,
and each name in it has become the one position that bears the name, be it before or behind.

## Checks that decide

Reading notes faults on the way and goes on with stand-ins, so that the result of a check means
nothing by itself. `Decides x R` says what it means together with the notes: a result in the
relation `R` comes out without a note, and one that comes out without a note is in the relation. A
check that is put together from such checks decides the composition of their relations. For the
whole operation this is `OpEntry.Resolves`, and an entry is well named iff it resolves to some
operation.
-/

namespace Flowgraph.Textual

open Checking

/-! ## Well-named graphs

What is asked of the entries, before it is known what they stand for: that each word is one that is
known, that the fields it looks at are as they should be, and that the references in them are names
of the graph. -/

/-- The name of an operation as it is compared with the keywords. -/
def OpEntry.word (e : OpEntry) : String := Text.lower (Text.trim e.name)

def OpEntry.EndsBlock (e : OpEntry) : Prop := e.word ∈ ["goto", "branch", "return"]

/-- The operation has a name, and what it refers to has one. -/
structure OpEntry.WellNamed (labels values : List String) (e : OpEntry) : Prop where
  named : Text.trim e.name ≠ ""
  args : ∀ a ∈ e.args, normalName a ∈ values
  goto : e.word = "goto" → normalName e.target ∈ labels
  branch : e.word = "branch" → e.args.length = 1 ∧ normalName e.ifTrue ∈ labels ∧
    normalName e.ifFalse ∈ labels ∧ Text.lower e.hint ∈ ["", "none", "true", "false"]
  phi : e.word = "phi" →
    Text.lower e.rep ∈ ["", "none", "word32", "word64", "float64", "tagged"]
  call : e.word = "call" → e.callee ≠ ""

/-- The last element of a list, and no other one, has the property. -/
def LastOnly {α : Type} (p : α → Prop) (l : List α) : Prop :=
  ∀ (i : Nat) (a : α), l[i]? = some a → (p a ↔ i + 1 = l.length)

/-- The block has a known kind and operations, of which exactly the last ends it. -/
structure BlockEntry.WellNamed (labels values : List String) (b : BlockEntry) : Prop where
  kind : Text.lower b.kind ∈ ["entry", "plain", "merge", "loop"]
  ne_nil : b.ops ≠ []
  ends : LastOnly OpEntry.EndsBlock b.ops
  op : ∀ op ∈ b.ops, op.WellNamed labels values

/-- The graph has blocks, no two of its blocks or values share a name, and every block is well
named. -/
structure GraphEntry.WellNamed (e : GraphEntry) : Prop where
  ne_nil : e.blocks ≠ []
  labels : e.labels.Nodup
  values : e.values.Nodup
  block : ∀ b ∈ e.blocks, b.WellNamed e.labels e.values

/-- There are handles for all blocks and operations. -/
structure GraphEntry.Fits (e : GraphEntry) : Prop where
  blocks_le : e.blocks.length ≤ noHandle
  ops_le : (e.blocks.flatMap (·.ops)).length ≤ noHandle

/-! ## What names denote

A name denotes the position that bears it, where names are compared in normal form. An entry acts as
an operation if the fields say what the operation has. -/

/-- Position `i` of the list, and no other one, bears the name. -/
structure Denotes (names : List String) (name : String) (i : Nat) : Prop where
  found : names[i]? = some (normalName name)
  unique : ∀ j, names[j]? = some (normalName name) → j = i

/-- The operation that the word of an entry stands for. -/
inductive OpEntry.Acts (e : OpEntry) (labels : List String) (args : List OpIndex) :
    Operation → Prop where
  | goto {t : BlockIndex} : e.word = "goto" → Denotes labels e.target t →
    Acts e labels args (.goto t)
  | branch {cond : OpIndex} {t f : BlockIndex} {hint : Hint} : e.word = "branch" → args = [cond] →
    hintOf? e.hint = some hint → Denotes labels e.ifTrue t → Denotes labels e.ifFalse f →
    Acts e labels args (.branch cond t f hint)
  | phi {rep : Representation} : e.word = "phi" → representationOf? e.rep = some rep →
    Acts e labels args ⟨.phi rep, args⟩
  | call : e.word = "call" → e.callee ≠ "" → Acts e labels args ⟨.call e.callee.toUTF8, args⟩
  | ret : e.word = "return" → Acts e labels args (.ret args)
  | dead : e.word = "dead" → Acts e labels args .dead
  | other : Text.trim e.name ≠ "" → e.word ∉ keywords →
    Acts e labels args ⟨.other (Text.trim e.name).toUTF8 e.required, args⟩

/-- The entry stands for the operation, with every name for what it denotes. -/
def OpEntry.Resolves (labels values : List String) (e : OpEntry) (op : Operation) : Prop :=
  ∃ args, List.Forall₂ (Denotes values) e.args args ∧ e.Acts labels args op

/-- The graph has the blocks and operations of the entry in their order, each operation in the block
that it is written in. -/
structure GraphEntry.Resolves (e : GraphEntry) (g : Graph) : Prop where
  name_eq : g.name = (normalName e.name).toUTF8
  blocks : List.Forall₂ (fun b blk ↦ kindOf? b.kind = some blk.kind ∧ blk.deferred = b.deferred)
    e.blocks g.blocks.toList
  ops : List.Forall₂ (OpEntry.Resolves e.labels e.values) (e.blocks.flatMap (·.ops)) g.ops.toList
  owners_eq : g.owners.toList =
    e.blocks.zipIdx.flatMap fun b ↦ List.replicate b.1.ops.length b.2

section Denotes

variable {names : List String} {name : String}

theorem denotes_iff (h : names.Nodup) {i : Nat} :
    Denotes names name i ↔ names.idxOf? (normalName name) = some i := by
  rw [List.idxOf?_eq_some_iff]
  constructor
  · intro hi
    obtain ⟨hlt, heq⟩ := List.getElem?_eq_some_iff.mp hi.found
    refine ⟨hlt, heq, fun j hj heq' ↦ ?_⟩
    rw [hi.unique j (List.getElem?_eq_some_iff.mpr ⟨_, heq'⟩)] at hj
    exact Nat.lt_irrefl _ hj
  · rintro ⟨hlt, heq, -⟩
    have hfound := List.getElem?_eq_some_iff.mpr ⟨hlt, heq⟩
    exact ⟨hfound, fun j hj ↦ ((List.getElem?_inj hlt h).mp (hfound.trans hj.symm)).symm⟩

theorem Denotes.mem {i : Nat} (h : Denotes names name i) : normalName name ∈ names :=
  List.mem_of_getElem? h.found

theorem exists_denotes (h : names.Nodup) (hmem : normalName name ∈ names) :
    ∃ i, Denotes names name i := by
  simp only [denotes_iff h]
  exact Option.ne_none_iff_exists'.mp fun hnone ↦ List.idxOf?_eq_none_iff.mp hnone hmem

private theorem exists_forall₂_denotes (h : names.Nodup) : ∀ {l : List String},
    (∀ a ∈ l, normalName a ∈ names) → ∃ is, List.Forall₂ (Denotes names) l is
  | [], _ => ⟨[], .nil⟩
  | a :: l, hl => by
    rw [List.forall_mem_cons] at hl
    obtain ⟨i, hi⟩ := exists_denotes h hl.1
    obtain ⟨is, his⟩ := exists_forall₂_denotes h hl.2
    exact ⟨i :: is, .cons hi his⟩

private theorem Denotes.forall_mem : ∀ {l : List String} {is : List Nat},
    List.Forall₂ (Denotes names) l is → ∀ a ∈ l, normalName a ∈ names
  | [], _, _ => nofun
  | _ :: _, _, .cons hi his => List.forall_mem_cons.mpr ⟨hi.mem, forall_mem his⟩

end Denotes

/-! ## Words -/

theorem lookup_isSome {γ : Type} {l : List (String × γ)} {k : String} :
    (∃ c, l.lookup k = some c) ↔ k ∈ l.map Prod.fst := by
  rw [← Option.isSome_iff_exists, List.lookup_isSome_iff, List.mem_map]
  exact exists_congr fun e ↦ and_congr_right fun _ ↦ beq_iff_eq.trans eq_comm

private theorem exists_kindOf? {s : String} :
    (∃ k, kindOf? s = some k) ↔ Text.lower s ∈ ["entry", "plain", "merge", "loop"] :=
  lookup_isSome

private theorem exists_hintOf? {s : String} :
    (∃ h, hintOf? s = some h) ↔ Text.lower s ∈ ["", "none", "true", "false"] :=
  lookup_isSome

private theorem exists_representationOf? {s : String} : (∃ r, representationOf? s = some r) ↔
    Text.lower s ∈ ["", "none", "word32", "word64", "float64", "tagged"] :=
  lookup_isSome

private theorem OpEntry.ne_empty_of_keyword {e : OpEntry} (h : e.word ∈ keywords) :
    Text.trim e.name ≠ "" := by
  intro hempty
  rw [OpEntry.word, hempty] at h
  exact absurd h (by decide +kernel)

section Acts

variable {e : OpEntry} {labels : List String} {args : List OpIndex} {op : Operation}

theorem OpEntry.Acts.named (h : e.Acts labels args op) : Text.trim e.name ≠ "" := by
  cases h with
  | other hne => exact hne
  | _ => exact OpEntry.ne_empty_of_keyword (by simp [keywords, *])

theorem acts_goto (hword : e.word = "goto") :
    e.Acts labels args op ↔ ∃ t, Denotes labels e.target t ∧ op = .goto t := by
  constructor
  · intro h
    cases h with
    | goto _ ht => exact ⟨_, ht, rfl⟩
    | _ => simp_all [keywords]
  · rintro ⟨t, ht, rfl⟩
    exact .goto hword ht

theorem acts_branch (hword : e.word = "branch") :
    e.Acts labels args op ↔ ∃ cond hint t f, args = [cond] ∧ hintOf? e.hint = some hint ∧
      Denotes labels e.ifTrue t ∧ Denotes labels e.ifFalse f ∧ op = .branch cond t f hint := by
  constructor
  · intro h
    cases h with
    | branch _ hargs hhint ht hf => exact ⟨_, _, _, _, hargs, hhint, ht, hf, rfl⟩
    | _ => simp_all [keywords]
  · rintro ⟨cond, hint, t, f, hargs, hhint, ht, hf, rfl⟩
    exact .branch hword hargs hhint ht hf

theorem acts_phi (hword : e.word = "phi") :
    e.Acts labels args op ↔ ∃ rep, representationOf? e.rep = some rep ∧ op = ⟨.phi rep, args⟩ := by
  constructor
  · intro h
    cases h with
    | phi _ hrep => exact ⟨_, hrep, rfl⟩
    | _ => simp_all [keywords]
  · rintro ⟨rep, hrep, rfl⟩
    exact .phi hword hrep

theorem acts_call (hword : e.word = "call") :
    e.Acts labels args op ↔ e.callee ≠ "" ∧ op = ⟨.call e.callee.toUTF8, args⟩ := by
  constructor
  · intro h
    cases h with
    | call _ hcallee => exact ⟨hcallee, rfl⟩
    | _ => simp_all [keywords]
  · rintro ⟨hcallee, rfl⟩
    exact .call hword hcallee

private theorem acts_ret (hword : e.word = "return") : e.Acts labels args op ↔ op = .ret args := by
  constructor
  · intro h
    cases h with
    | ret => rfl
    | _ => simp_all [keywords]
  · rintro rfl
    exact .ret hword

private theorem acts_dead (hword : e.word = "dead") : e.Acts labels args op ↔ op = .dead := by
  constructor
  · intro h
    cases h with
    | dead => rfl
    | _ => simp_all [keywords]
  · rintro rfl
    exact .dead hword

private theorem acts_other (hne : Text.trim e.name ≠ "") (hword : e.word ∉ keywords) :
    e.Acts labels args op ↔ op = ⟨.other (Text.trim e.name).toUTF8 e.required, args⟩ := by
  constructor
  · intro h
    cases h with
    | other => rfl
    | _ => exact absurd (by simp [keywords, *]) hword
  · rintro rfl
    exact .other hne hword

private theorem OpEntry.Acts.isTerminator_iff (h : e.Acts labels args op) :
    e.EndsBlock ↔ op.isTerminator = true := by
  rw [EndsBlock]
  cases h with
  | other _ hword => simp_all [Operation.isTerminator, keywords]
  | _ => simp_all [Operation.isTerminator, Operation.goto, Operation.branch, Operation.ret,
      Operation.dead]

end Acts

/-- An entry stands for an operation iff it is well named. -/
theorem OpEntry.exists_resolves {labels values : List String} (hl : labels.Nodup)
    (hv : values.Nodup) {e : OpEntry} :
    (∃ op, e.Resolves labels values op) ↔ e.WellNamed labels values := by
  constructor
  · rintro ⟨op, args, hargs, hact⟩
    exact {
      named := hact.named
      args := Denotes.forall_mem hargs
      goto := fun hword ↦ by
        obtain ⟨t, ht, -⟩ := (acts_goto hword).mp hact
        exact ht.mem
      branch := fun hword ↦ by
        obtain ⟨cond, hint, t, f, rfl, hhint, ht, hf, -⟩ := (acts_branch hword).mp hact
        exact ⟨hargs.length_eq, ht.mem, hf.mem, exists_hintOf?.mp ⟨hint, hhint⟩⟩
      phi := fun hword ↦ by
        obtain ⟨rep, hrep, -⟩ := (acts_phi hword).mp hact
        exact exists_representationOf?.mp ⟨rep, hrep⟩
      call := fun hword ↦ ((acts_call hword).mp hact).1 }
  · intro h
    obtain ⟨args, hargs⟩ := exists_forall₂_denotes hv h.args
    -- the values stand for operations in any case, so that it is the rest that matters
    suffices hact : ∃ op, e.Acts labels args op from
      hact.imp fun op hop ↦ ⟨args, hargs, hop⟩
    by_cases hkey : e.word ∈ keywords
    · simp only [keywords, List.mem_cons, List.not_mem_nil, or_false] at hkey
      rcases hkey with hword | hword | hword | hword | hword | hword
      · obtain ⟨t, ht⟩ := exists_denotes hl (h.goto hword)
        exact ⟨_, .goto hword ht⟩
      · obtain ⟨hone, hifTrue, hifFalse, hhint⟩ := h.branch hword
        rw [hargs.length_eq, List.length_eq_one_iff] at hone
        obtain ⟨cond, hcond⟩ := hone
        obtain ⟨hint, hhint⟩ := exists_hintOf?.mpr hhint
        obtain ⟨t, ht⟩ := exists_denotes hl hifTrue
        obtain ⟨f, hf⟩ := exists_denotes hl hifFalse
        exact ⟨_, .branch hword hcond hhint ht hf⟩
      · obtain ⟨rep, hrep⟩ := exists_representationOf?.mpr (h.phi hword)
        exact ⟨_, .phi hword hrep⟩
      · exact ⟨_, .call hword (h.call hword)⟩
      · exact ⟨_, .ret hword⟩
      · exact ⟨_, .dead hword⟩
    · exact ⟨_, .other h.named hkey⟩

/-! ## Checks and relations

The rules for deciding. A check that notes nothing may still have a result that means nothing, which
is why the two directions go together. -/

section Decides

variable {α β : Type}

/-- What is in the relation comes out of the check without a note, and what comes out without a note
is in the relation. -/
structure Decides (x : Checking α) (R : α → Prop) : Prop where
  complete : ∀ a, R a → ∀ faults, x.run faults = (a, faults)
  sound : Clean x R

theorem decides_pure (a : α) : Decides (pure a) (· = a) :=
  ⟨fun _ h _ ↦ h ▸ rfl, clean_pure a⟩

theorem decides_note (f : OpFault) (a : α) :
    Decides (note f >>= fun _ ↦ pure a) fun _ ↦ False :=
  ⟨nofun, clean_note f a _⟩

theorem Decides.bind {x : Checking α} {f : α → Checking β} {R : α → Prop} {S : α → β → Prop}
    (hx : Decides x R) (hf : ∀ a, Decides (f a) (S a)) :
    Decides (x >>= f) fun b ↦ ∃ a, R a ∧ S a b := by
  refine ⟨?_, hx.sound.bind fun a ↦ (hf a).sound⟩
  rintro b ⟨a, ha, hb⟩ faults
  have hrun : (x >>= f).run faults = (f (x.run faults).1).run (x.run faults).2 := rfl
  rw [hrun, hx.complete a ha, (hf a).complete b hb]

theorem Decides.congr {x : Checking α} {R S : α → Prop} (h : Decides x R) (hRS : ∀ a, R a ↔ S a) :
    Decides x S :=
  ⟨fun a ha ↦ h.complete a ((hRS a).mpr ha), h.sound.mono fun a ↦ (hRS a).mp⟩

theorem decides_orNote (found : Option α) (standIn : α) (f : OpFault) :
    Decides (orNote found standIn f) (found = some ·) := by
  cases found with
  | none => exact (decides_note f standIn).congr fun _ ↦ by simp
  | some a => exact (decides_pure a).congr fun _ ↦ by rw [Option.some.injEq, eq_comm]

private theorem decides_mapM {f : α → Checking β} {R : α → β → Prop}
    (hf : ∀ a, Decides (f a) (R a)) : ∀ l : List α, Decides (l.mapM f) (List.Forall₂ R l)
  | [] => by
    rw [List.mapM_nil]
    exact (decides_pure _).congr fun _ ↦ List.forall₂_nil_left_iff.symm
  | a :: l => by
    rw [List.mapM_cons]
    refine ((hf a).bind fun b ↦ (decides_mapM hf l).bind fun bs ↦ decides_pure (b :: bs)).congr ?_
    intro bs
    rw [List.forall₂_cons_left_iff]
    constructor
    · rintro ⟨b, hb, bs, hbs, rfl⟩
      exact ⟨b, bs, hb, hbs, rfl⟩
    · rintro ⟨b, bs, hb, hbs, rfl⟩
      exact ⟨b, hb, bs, hbs, rfl⟩

end Decides

/-! ## Operations

One case for each keyword: the fields are read, the names are looked up, and a fault is noted where
one of them is missing. -/

section Operation

variable {s : Scope} (hl : s.labels.Nodup) (hv : s.values.Nodup)

include hl in
theorem decides_block (name : String) : Decides (s.block name) (Denotes s.labels name) :=
  (decides_orNote _ _ _).congr fun _ ↦ (denotes_iff hl).symm

include hv in
private theorem decides_value (name : String) : Decides (s.value name) (Denotes s.values name) :=
  (decides_orNote _ _ _).congr fun _ ↦ (denotes_iff hv).symm

include hl in
private theorem decides_branch {e : OpEntry} (hword : e.word = "branch") (args : List OpIndex) :
    Decides (e.branch s args) (e.Acts s.labels args) := by
  rw [OpEntry.branch.eq_def]
  split
  · rename_i cond
    refine ((decides_orNote _ _ _).bind fun hint ↦ (decides_block hl e.ifTrue).bind fun t ↦
      (decides_block hl e.ifFalse).bind fun f ↦
        decides_pure (Operation.branch cond t f hint)).congr fun op ↦ ?_
    rw [acts_branch hword]
    constructor
    · rintro ⟨hint, hhint, t, ht, f, hf, rfl⟩
      exact ⟨cond, hint, t, f, rfl, hhint, ht, hf, rfl⟩
    · rintro ⟨_, hint, t, f, hargs, hhint, ht, hf, rfl⟩
      cases hargs
      exact ⟨hint, hhint, t, ht, f, hf, rfl⟩
  · rename_i hne
    refine (decides_note _ _).congr fun op ↦ ⟨False.elim, fun h ↦ ?_⟩
    obtain ⟨cond, -, -, -, hargs, -⟩ := (acts_branch hword).mp h
    exact hne cond hargs

include hl hv in
private theorem decides_operation (e : OpEntry) :
    Decides (e.operation s) (e.Resolves s.labels s.values) := by
  rw [OpEntry.operation]
  split
  · rename_i hempty
    refine (decides_note _ _).congr fun op ↦ ⟨False.elim, ?_⟩
    rintro ⟨args, -, hact⟩
    exact hact.named (String.isEmpty_iff.mp hempty)
  · rename_i hne
    rw [String.isEmpty_iff] at hne
    refine (decides_mapM (decides_value hv) e.args).bind fun args ↦ ?_
    split
    · rename_i hword
      exact ((decides_block hl e.target).bind fun t ↦ decides_pure (Operation.goto t)).congr
        fun _ ↦ (acts_goto hword).symm
    · rename_i hword
      exact decides_branch hl hword args
    · rename_i hword
      exact ((decides_orNote _ _ _).bind fun rep ↦
        decides_pure (Operation.mk (.phi rep) args)).congr
        fun _ ↦ (acts_phi hword).symm
    · rename_i hword
      split
      · rename_i hcallee
        refine (decides_note _ _).congr fun op ↦ ⟨False.elim, fun h ↦ ?_⟩
        exact ((acts_call hword).mp h).1 (String.isEmpty_iff.mp hcallee)
      · rename_i hcallee
        rw [String.isEmpty_iff] at hcallee
        refine (decides_pure _).congr fun op ↦ ?_
        rw [acts_call hword, and_iff_right hcallee]
    · rename_i hword
      exact (decides_pure _).congr fun _ ↦ (acts_ret hword).symm
    · rename_i hword
      exact (decides_pure _).congr fun _ ↦ (acts_dead hword).symm
    · refine (decides_pure _).congr fun _ ↦ (acts_other hne ?_).symm
      simp_all [OpEntry.word, keywords]

end Operation

/-! ## Blocks -/

section LastOnly

variable {α β : Type} {p : α → Prop} {q : β → Prop}

theorem lastOnly_nil : LastOnly p [] := by
  intro i a h
  rw [List.getElem?_nil] at h
  exact absurd h.symm (Option.some_ne_none a)

theorem lastOnly_cons {a : α} {l : List α} :
    LastOnly p (a :: l) ↔ (p a ↔ l = []) ∧ LastOnly p l := by
  constructor
  · intro h
    refine ⟨(h 0 a rfl).trans ?_, fun i b hb ↦ (h (i + 1) b hb).trans ?_⟩
    · rw [List.length_cons, ← List.length_eq_zero_iff]
      omega
    · rw [List.length_cons]
      omega
  · rintro ⟨hhead, hrest⟩ i b hb
    rw [List.length_cons]
    cases i with
    | zero =>
      cases hb
      rw [hhead, ← List.length_eq_zero_iff]
      omega
    | succ i =>
      rw [hrest i b hb]
      omega

private theorem lastOnly_of_forall₂ {r : α → β → Prop} (hr : ∀ a b, r a b → (p a ↔ q b)) :
    ∀ {l : List α} {l' : List β}, List.Forall₂ r l l' → (LastOnly p l ↔ LastOnly q l')
  | [], _, .nil => iff_of_true lastOnly_nil lastOnly_nil
  | a :: l, b :: l', .cons hab hrest => by
    have hnil : l = [] ↔ l' = [] := by
      rw [← List.length_eq_zero_iff, hrest.length_eq, List.length_eq_zero_iff]
    rw [lastOnly_cons, lastOnly_cons, hr a b hab, hnil, lastOnly_of_forall₂ hr hrest]

end LastOnly

private theorem forall₂_zipIdx {α β : Type} {r : α → β → Prop} {l : List α} {k : Nat}
    {l' : List β} : List.Forall₂ (fun a b ↦ r a.1 b) (l.zipIdx k) l' ↔ List.Forall₂ r l l' := by
  rw [← List.forall₂_map_left_iff (f := Prod.fst), List.zipIdx_map_fst]

/-- The operations that the entries of a block stand for. -/
structure BlockEntry.Resolves (labels values : List String) (b : BlockEntry)
    (ops : List Operation) : Prop where
  ne_nil : b.ops ≠ []
  resolves : List.Forall₂ (OpEntry.Resolves labels values) b.ops ops
  ends : Graph.Ends ops

private theorem exists_forall₂_resolves {labels values : List String} (hl : labels.Nodup)
    (hv : values.Nodup) : ∀ {l : List OpEntry}, (∀ e ∈ l, e.WellNamed labels values) →
    ∃ ops, List.Forall₂ (OpEntry.Resolves labels values) l ops
  | [], _ => ⟨[], .nil⟩
  | e :: l, h => by
    rw [List.forall_mem_cons] at h
    obtain ⟨op, hop⟩ := (OpEntry.exists_resolves hl hv).mpr h.1
    obtain ⟨ops, hops⟩ := exists_forall₂_resolves hl hv h.2
    exact ⟨op :: ops, .cons hop hops⟩

/-- A block is well named iff its kind is known and its entries stand for operations. -/
theorem BlockEntry.wellNamed_iff {labels values : List String} (hl : labels.Nodup)
    (hv : values.Nodup) {b : BlockEntry} : b.WellNamed labels values ↔
      (∃ k, kindOf? b.kind = some k) ∧ ∃ ops, b.Resolves labels values ops := by
  have hends : ∀ {ops}, List.Forall₂ (OpEntry.Resolves labels values) b.ops ops →
      (LastOnly OpEntry.EndsBlock b.ops ↔ Graph.Ends ops) := fun hops ↦
    lastOnly_of_forall₂ (fun _ _ ⟨_, _, hact⟩ ↦ hact.isTerminator_iff) hops
  rw [exists_kindOf?]
  constructor
  · intro h
    obtain ⟨ops, hops⟩ := exists_forall₂_resolves hl hv h.op
    exact ⟨h.kind, ops, h.ne_nil, hops, (hends hops).mp h.ends⟩
  · rintro ⟨hkind, ops, hne, hops, hlast⟩
    refine ⟨hkind, hne, (hends hops).mpr hlast, fun e he ↦ ?_⟩
    obtain ⟨i, hi⟩ := List.mem_iff_get.mp he
    have hlt : i.1 < ops.length := hops.length_eq ▸ i.2
    exact (OpEntry.exists_resolves hl hv).mp ⟨_, hi ▸ hops.get i.2 hlt⟩

section Scope

variable {s : Scope} (hl : s.labels.Nodup) (hv : s.values.Nodup)

include hl hv

private theorem blockOps_eq_iff (b : Nat) : ∀ {l : List (OpEntry × Nat)} {ops : List Operation},
    blockOps s b l = (ops, [], true) ↔
      List.Forall₂ (fun e op ↦ e.1.Resolves s.labels s.values op) l ops ∧ Graph.Ends ops
  | [], ops => by
    rw [blockOps, List.forall₂_nil_left_iff]
    constructor
    · intro h
      cases h
      exact ⟨rfl, lastOnly_nil⟩
    · rintro ⟨rfl, -⟩
      rfl
  | (e, i) :: rest, ops => by
    have hdecides := decides_operation hl hv e
    have hends : ∀ {op : Operation} {ops' : List Operation}, List.Forall₂ (fun e op ↦
        e.1.Resolves s.labels s.values op) rest ops' →
        (op.isTerminator = rest.isEmpty ↔ (op.isTerminator = true ↔ ops' = [])) := fun hops ↦ by
      rw [Bool.eq_iff_iff, List.isEmpty_iff, ← List.length_eq_zero_iff, hops.length_eq,
        List.length_eq_zero_iff]
    rw [blockOps_cons]
    constructor
    · rintro ⟨op, more, hrun, hend, hrest, rfl⟩
      obtain ⟨hmore, hlast⟩ := blockOps_eq_iff b |>.mp hrest
      have hclean := hdecides.sound #[]
      rw [hrun] at hclean
      exact ⟨.cons (hclean rfl).2 hmore, lastOnly_cons.mpr ⟨(hends hmore).mp hend, hlast⟩⟩
    · rintro ⟨hops, hlast⟩
      cases hops with
      | @cons _ op _ more hop hmore =>
        obtain ⟨hhead, hlast⟩ := lastOnly_cons.mp hlast
        exact ⟨op, more, hdecides.complete _ hop #[], (hends hmore).mpr hhead,
          blockOps_eq_iff b |>.mpr ⟨hmore, hlast⟩, rfl⟩

theorem blockOps_zipIdx {b : Nat} {e : BlockEntry} (hne : e.ops ≠ []) {ops : List Operation} :
    blockOps s b e.ops.zipIdx = (ops, [], true) ↔ e.Resolves s.labels s.values ops := by
  rw [blockOps_eq_iff hl hv, forall₂_zipIdx]
  exact ⟨fun h ↦ ⟨hne, h.1, h.2⟩, fun h ↦ ⟨h.resolves, h.ends⟩⟩

end Scope

/-! ## Filling the blocks

The operations of the file are added block by block. Where all entries stand for operations this
cannot fail, except that the handles may come to an end. -/

/-- The kind and the flag of a block, which filling leaves alone. -/
def headOf (blk : Block) : BlockKind × Bool := (blk.kind, blk.deferred)

private theorem owners_of_addOperations {b : BlockIndex} : ∀ {ops : List Operation} {g g' : Graph},
    (∀ c, g.bound = some c → c = b) → g.addOperations ops = .ok g' →
    g'.owners.toList = g.owners.toList ++ List.replicate ops.length b ∧
      g'.blocks.toList.map headOf = g.blocks.toList.map headOf
  | [], g, g', _, h => by
    cases h
    exact ⟨(List.append_nil _).symm, rfl⟩
  | op :: ops, g, g', hb, h => by
    rw [Graph.addOperations, List.foldlM_cons] at h
    obtain ⟨g₁, hadd, h⟩ := exists_of_bind_ok h
    obtain ⟨c, hc, -, -, rfl⟩ := Graph.addOperation_eq_ok hadd
    obtain rfl := hb c hc
    have hbound : ∀ d, (g.appended c op).bound = some d → d = c := by
      intro d hd
      rw [Graph.appended] at hd
      split at hd
      · cases hd
      · exact (Option.some.inj hd).symm
    obtain ⟨howners, hheads⟩ := owners_of_addOperations hbound h
    refine ⟨?_, hheads.trans ?_⟩
    · rw [howners, Graph.appended, Array.toList_push, List.append_assoc, List.length_cons,
        List.replicate_succ]
      rfl
    · refine List.ext_getElem? fun d ↦ ?_
      rw [List.getElem?_map, List.getElem?_map, Array.getElem?_toList, Array.getElem?_toList,
        Graph.appended, Array.getElem?_modify]
      split
      · rw [Option.map_map]
        rfl
      · rfl

/-- What filling some blocks adds to a graph. -/
structure FilledFrom (s : Scope) (l : List (BlockEntry × Nat)) (g g' : Graph) : Prop where
  name_eq : g'.name = g.name
  heads_eq : g'.blocks.toList.map headOf = g.blocks.toList.map headOf
  resolves : ∀ e ∈ l, ∃ ops, e.1.Resolves s.labels s.values ops
  ops : ∃ ops, List.Forall₂ (OpEntry.Resolves s.labels s.values) (l.flatMap (·.1.ops)) ops ∧
    g'.ops.toList = g.ops.toList ++ ops
  owners_eq : g'.owners.toList =
    g.owners.toList ++ l.flatMap fun b ↦ List.replicate b.1.ops.length b.2

private theorem FilledFrom.refl (s : Scope) (g : Graph) : FilledFrom s [] g g :=
  ⟨rfl, rfl, nofun, ⟨[], .nil, (List.append_nil _).symm⟩, (List.append_nil _).symm⟩

private theorem FilledFrom.cons {s : Scope} {e : BlockEntry} {b : BlockIndex}
    {l : List (BlockEntry × Nat)} {g g₁ g₂ g' : Graph} {ops : List Operation}
    (hbind : g.bind b = .ok g₁) (hadd : g₁.addOperations ops = .ok g₂)
    (he : e.Resolves s.labels s.values ops) (h : FilledFrom s l g₂ g') :
    FilledFrom s ((e, b) :: l) g g' := by
  obtain ⟨-, -, rfl⟩ := Graph.bind_eq_ok hbind
  have hadded := added_of_addOperations hadd
  obtain ⟨howners, hheads⟩ := owners_of_addOperations (b := b)
    (fun c hc ↦ (Option.some.inj hc).symm) hadd
  obtain ⟨more, hmore, hops⟩ := h.ops
  exact {
    name_eq := h.name_eq.trans hadded.name_eq
    heads_eq := h.heads_eq.trans hheads
    resolves := List.forall_mem_cons.mpr ⟨⟨ops, he⟩, h.resolves⟩
    ops := by
      refine ⟨ops ++ more, List.rel_append he.resolves hmore, ?_⟩
      rw [hops, hadded.ops_eq, List.append_assoc]
    owners_eq := by
      rw [h.owners_eq, howners, List.append_assoc, List.flatMap_cons, he.resolves.length_eq] }

section Scope

variable {s : Scope} (hl : s.labels.Nodup) (hv : s.values.Nodup)

include hl hv

private theorem filledFrom_of_fillBlocks : ∀ {l : List (BlockEntry × Nat)} {g g' : Graph}
    {faults : List Fault}, fillBlocks s l g faults = .ok g' → FilledFrom s l g g'
  | [], g, g', [], h => by
    cases h
    exact .refl s g
  | [], g, g', f :: faults, h => by cases h
  | (e, b) :: l, g, g', faults, h => by
    obtain ⟨ops, g₁, g₂, hne, hops, hbind, hadd, h⟩ := exists_of_fillBlocks_cons h
    exact (filledFrom_of_fillBlocks h).cons hbind hadd ((blockOps_zipIdx hl hv hne).mp hops)

private theorem breach_of_fillBlocks : ∀ {l : List (BlockEntry × Nat)} {g : Graph} {err : Error},
    (∀ e ∈ l, ∃ ops, e.1.Resolves s.labels s.values ops) → fillBlocks s l g [] = .error err →
    ∃ k, err = .breach k
  | [], g, err, _, h => by cases h
  | (e, b) :: l, g, err, hall, h => by
    rw [List.forall_mem_cons] at hall
    obtain ⟨⟨ops, hops⟩, hrest⟩ := hall
    rw [fillBlocks, if_neg (by simpa using hops.ne_nil),
      (blockOps_zipIdx hl hv hops.ne_nil).mpr hops] at h
    dsimp only at h
    cases hadd : g.bind b >>= (·.addOperations ops) with
    | error k =>
      rw [hadd] at h
      cases h
      exact ⟨k, rfl⟩
    | ok g' =>
      rw [hadd] at h
      exact breach_of_fillBlocks hrest h

end Scope

/-! ## Whole graphs

From both sides: a graph that is read resolves the entry, and an entry that is well named and fits
is read as a graph. -/

variable {e : GraphEntry} {g : Graph}

private theorem FilledFrom.resolves_graph {g₀ : Graph}
    (h : FilledFrom ⟨e.labels, e.values⟩ e.blocks.zipIdx g₀ g)
    (hkinds : ∀ b ∈ e.blocks, ∃ k, kindOf? b.kind = some k)
    (hname : g₀.name = (normalName e.name).toUTF8)
    (hblocks : g₀.blocks.toList = e.blocks.map fun b ↦
      ⟨(kindOf? b.kind).getD .entry, b.deferred, none⟩)
    (hops : g₀.ops = #[]) (howners : g₀.owners = #[]) : e.Resolves g := by
  refine ⟨h.name_eq.trans hname, ?_, ?_, ?_⟩
  · refine (List.forall₂_map_right_iff (f := headOf) (R := fun (b : BlockEntry) x ↦
      kindOf? b.kind = some x.1 ∧ x.2 = b.deferred)).mp ?_
    rw [h.heads_eq, hblocks, List.map_map, List.forall₂_map_right_iff, List.forall₂_same]
    intro b hb
    obtain ⟨k, hk⟩ := hkinds b hb
    simp [headOf, hk]
  · obtain ⟨ops, hresolved, heq⟩ := h.ops
    have hzip : e.blocks.zipIdx.flatMap (fun b ↦ b.1.ops) = e.blocks.flatMap (·.ops) := by
      rw [← List.flatMap_map Prod.fst BlockEntry.ops, List.zipIdx_map_fst]
    rw [heq, hops, List.nil_append, ← hzip]
    exact hresolved
  · rw [h.owners_eq, howners, List.nil_append]

private theorem resolves_of_graph (h : e.graph = .ok g) : e.WellNamed ∧ e.Resolves g := by
  obtain ⟨hdecoded, -⟩ := decoded_of_graph h
  obtain ⟨hne, ⟨hl, hv⟩, hkinds, g₀, hadd, hfill⟩ := graph_eq_ok_iff.mp h
  have hfilled := filledFrom_of_fillBlocks hl hv hfill
  -- the blocks are counted in the graph that came out, whose size is known to be in range
  have hcount : g.blocks.toList.length = e.blocks.length := by
    have hlen := congrArg List.length hfilled.heads_eq
    obtain ⟨-, hblocks, -⟩ := (Graph.awaiting_empty _).addBlocks (fun hadd ↦ ⟨_, _, hadd⟩) hadd
    rw [List.length_map, List.length_map] at hlen
    exact hlen.trans (hblocks.trans (Nat.zero_add _))
  have hroom : e.blocks.length ≤ noHandle := hcount ▸ hdecoded.tidy.sound.blocks_le
  rw [Graph.foldlM_addBlock (by simpa [Graph.empty, Graph.blockCount] using hroom)] at hadd
  obtain rfl := Except.ok.inj hadd
  refine ⟨⟨hne, hl, hv, fun b hb ↦ ?_⟩,
    hfilled.resolves_graph hkinds (by simp only [Graph.empty]) (by simp [Graph.empty]) rfl rfl⟩
  obtain ⟨i, hi⟩ := List.mem_iff_getElem?.mp hb
  exact (BlockEntry.wellNamed_iff hl hv).mpr
    ⟨hkinds b hb, hfilled.resolves (b, i) (List.mk_mem_zipIdx_iff_getElem?.mpr hi)⟩

private theorem breach_of_graph {err : Error} (hnamed : e.WellNamed) (h : e.graph = .error err) :
    ∃ k, err = .breach k := by
  have hblock : ∀ b ∈ e.blocks, (∃ k, kindOf? b.kind = some k) ∧
      ∃ ops, b.Resolves e.labels e.values ops := fun b hb ↦
    (BlockEntry.wellNamed_iff hnamed.labels hnamed.values).mp (hnamed.block b hb)
  have hdup := duplicates_blocks_eq_nil_iff.mpr ⟨hnamed.labels, hnamed.values⟩
  have hkinds := unknownKinds_eq_nil_iff.mpr fun b hb ↦ (hblock b hb).1
  rw [GraphEntry.graph, if_neg (by simpa using hnamed.ne_nil)] at h
  simp only [hdup, hkinds, List.append_nil] at h
  cases hadd : e.blocks.foldlM
      (fun g b ↦ Graph.addBlock g ((kindOf? b.kind).getD .entry) b.deferred)
      (Graph.empty (normalName e.name).toUTF8) with
  | error k =>
    rw [hadd] at h
    cases h
    exact ⟨k, rfl⟩
  | ok g₀ =>
    rw [hadd] at h
    exact breach_of_fillBlocks (s := ⟨e.labels, e.values⟩) hnamed.labels hnamed.values
      (fun b hb ↦ (hblock b.1 (List.fst_mem_of_mem_zipIdx hb)).2) h

private theorem exists_graph_of_wellNamed (hnamed : e.WellNamed) (hfits : e.Fits) :
    ∃ g, e.graph = .ok g := by
  cases h : e.graph with
  | ok g => exact ⟨g, rfl⟩
  | error err =>
    exfalso
    obtain ⟨k, rfl⟩ := breach_of_graph hnamed h
    rcases tells_of_graph h with hnone | ⟨l, hfaults, -⟩ | ⟨-, hlarge | hlarge⟩
    · cases hnone
    · cases hfaults
    · exact Nat.not_lt.mpr hfits.blocks_le hlarge
    · exact Nat.not_lt.mpr hfits.ops_le hlarge

/-- A graph is read exactly if it is well named and there are handles for it, and then every name
in it denotes the one block or operation that bears it. -/
theorem graph_resolves (e : GraphEntry) :
    ((∃ g, e.graph = .ok g) ↔ e.WellNamed ∧ e.Fits) ∧ ∀ g, e.graph = .ok g → e.Resolves g := by
  refine ⟨⟨?_, fun h ↦ exists_graph_of_wellNamed h.1 h.2⟩, fun g h ↦ (resolves_of_graph h).2⟩
  rintro ⟨g, h⟩
  obtain ⟨hnamed, hresolves⟩ := resolves_of_graph h
  have hsound := (decoded_of_graph h).1.tidy.sound
  exact ⟨hnamed, hresolves.blocks.length_eq ▸ hsound.blocks_le,
    hresolves.ops.length_eq ▸ hsound.ops_le⟩

/-- A loop whose header is referred to before it is defined, with names that differ in white space
and words that differ in case. -/
def sampleEntry : GraphEntry where
  name := "sample"
  blocks :=
    [⟨"", "Entry", false,
      [{ OpEntry.zero with value := "start", name := "const" },
       { OpEntry.zero with name := "goto", target := " head " }]⟩,
     ⟨"head", "loop", false,
      [{ OpEntry.zero with
          value := "i", name := "phi", args := ["start", "next"], rep := "Word32" },
       { OpEntry.zero with value := "next", name := "add", args := ["i", "i"] },
       { OpEntry.zero with
          name := "BRANCH", args := ["next "]
          ifTrue := "head", ifFalse := "b2", hint := "true" }]⟩,
     ⟨"", "plain", true, [{ OpEntry.zero with name := "return", args := ["i"] }]⟩]

theorem graph_resolves_sampleEntry :
    sampleEntry.WellNamed ∧ ∃ g, sampleEntry.graph = .ok g ∧ sampleEntry.Resolves g := by
  obtain ⟨haccepts, hresolves⟩ := graph_resolves sampleEntry
  have hread : ∃ g, sampleEntry.graph = .ok g := by
    have hok : sampleEntry.graph.toOption.isSome = true := by decide +kernel
    cases h : sampleEntry.graph with
    | ok g => exact ⟨g, rfl⟩
    | error err =>
      rw [h] at hok
      cases hok
  obtain ⟨g, hg⟩ := hread
  exact ⟨(haccepts.mp ⟨g, hg⟩).1, g, hg, hresolves g hg⟩

end Flowgraph.Textual
