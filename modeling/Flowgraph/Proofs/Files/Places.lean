import Flowgraph.Files.Tree
import Flowgraph.Proofs.Files.Paths
import Flowgraph.Proofs.Graph.Sound

/-!
# Places in a tree

Where a path leads is decided by names alone: `Tree.placeOf` walks along the elements of the path
from the working directory or the root. The tree only has a say in whether the way is passable, that
is, whether there is a directory before every element. So a path keeps its place, and stays
passable, in every tree that has the same directories and more.

An operation puts an entry at one place and leaves all others alone. `Tree.Changes` says this of any
number of operations: directories may be new anywhere, and files may be new or other ones at certain
places only.
-/

namespace Flowgraph.Files

namespace Node

/-! ## Entries below a node

A node is seen here as a map from places to entries. Putting an entry at a place makes the
directories on the way to it, and changes nothing at any other place that was there. -/

theorem get?_append : ∀ {n : Node} {p q : Place}, n.get? (p ++ q) = (n.get? p).bind (get? q)
  | n, [], q => by rw [List.nil_append, get?, Option.bind_some]
  | .file bytes, name :: rest, q => rfl
  | .directory children, name :: rest, q => by
    rw [List.cons_append, get?, get?, Option.bind_assoc]
    congr 1
    exact funext fun child ↦ get?_append

theorem lookup_cons (k m : String) (child : Node) (children : List (String × Node)) :
    ((k, child) :: children).lookup m = if m = k then some child else children.lookup m := by
  rw [List.lookup_cons]
  by_cases hm : m = k
  · rw [if_pos hm, beq_iff_eq.mpr hm]
  · rw [if_neg hm, beq_eq_false_iff_ne.mpr hm]

private theorem lookup_replace (name m : String) (n : Node) : ∀ children : List (String × Node),
    (children.map fun c ↦ if c.1 = name then (name, n) else c).lookup m
      = if m = name then (children.lookup name).map fun _ ↦ n else children.lookup m
  | [] => by simp
  | (k, child) :: children => by
    rw [List.map_cons, lookup_cons, lookup_cons]
    have ih := lookup_replace name m n children
    by_cases hk : k = name
    · subst hk
      rw [if_pos rfl, lookup_cons, ih]
      by_cases hm : m = k
      · simp [hm]
      · simp [hm]
    · rw [if_neg hk, lookup_cons, ih, if_neg (Ne.symm hk)]
      by_cases hm : m = k
      · simp [hm, hk]
      · simp [hm]

private theorem lookup_withChild (children : List (String × Node)) (name m : String) (n : Node) :
    (withChild children name n).lookup m = if m = name then some n else children.lookup m := by
  rw [withChild]
  split
  · rename_i hsome
    obtain ⟨child, hchild⟩ := Option.isSome_iff_exists.mp hsome
    rw [lookup_replace, hchild, Option.map_some]
  · rename_i hnone
    replace hnone : children.lookup name = none := by
      rwa [Option.isSome_iff_ne_none, not_not] at hnone
    rw [List.lookup_append, lookup_cons]
    by_cases hm : m = name
    · rw [if_pos hm, if_pos hm, hm, hnone, Option.none_or]
    · rw [if_neg hm, if_neg hm, List.lookup_nil, Option.or_none]

/-- No file is on the way to a place. -/
def Takes : Place → Node → Prop
  | [], _ => True
  | name :: rest, .directory children => Takes rest ((children.lookup name).getD (.directory []))
  | _ :: _, .file _ => False

/-- What stands at a place below a node. -/
def entryAt (n : Node) (q : Place) : Option Entry := (n.get? q).map entry

private theorem entryAt_leaf {n : Node} (h : n = .directory [] ∨ ∃ bytes, n = .file bytes)
    {q : Place} (hq : q ≠ []) : n.entryAt q = none := by
  cases q with
  | nil => exact absurd rfl hq
  | cons name rest => obtain rfl | ⟨bytes, rfl⟩ := h <;> rfl

private theorem entryAt_cons (children : List (String × Node)) (name : String) (q : Place) :
    (directory children).entryAt (name :: q) = (children.lookup name).bind (entryAt · q) := by
  rw [entryAt, get?]
  cases children.lookup name <;> rfl

private theorem entryAt_put {e : Entry} : ∀ {p : Place} {n : Node}, Takes p n →
    (∀ children, n.get? p = some (.directory children) → children = []) → ∀ q,
      (n.put p e).entryAt q
        = if q = p then some e else if q <+: p then some .directory else n.entryAt q := by
  intro p
  induction p with
  | nil =>
    intro n _ hfree q
    have hput : (n.put [] e).entryAt [] = some e ∧
        (n.put [] e = .directory [] ∨ ∃ bytes, n.put [] e = .file bytes) := by
      cases e with
      | file bytes => exact ⟨rfl, Or.inr ⟨bytes, rfl⟩⟩
      | directory =>
        cases n with
        | file bytes => exact ⟨rfl, Or.inl rfl⟩
        | directory children =>
          rw [hfree children rfl]
          exact ⟨rfl, Or.inl rfl⟩
    by_cases hq : q = []
    · rw [if_pos hq, hq, hput.1]
    · have hn : n = .directory [] ∨ ∃ bytes, n = .file bytes := by
        cases n with
        | file bytes => exact Or.inr ⟨bytes, rfl⟩
        | directory children => exact Or.inl (by rw [hfree children rfl])
      rw [if_neg hq, if_neg (by simpa using hq), entryAt_leaf hput.2 hq, entryAt_leaf hn hq]
  | cons name rest ih =>
    rintro (bytes | children) htakes hfree q
    · exact htakes.elim
    rw [put]
    -- the place and `q` either start with the same name, and the child decides, or part here
    cases q with
    | nil => rw [if_neg (by simp), if_pos List.nil_prefix]; rfl
    | cons m q =>
      rw [entryAt_cons, entryAt_cons, lookup_withChild]
      by_cases hm : m = name
      · subst hm
        rw [if_pos rfl, Option.bind_some]
        cases hlookup : children.lookup m with
        | some child =>
          rw [Takes, hlookup, Option.getD_some] at htakes
          rw [get?, hlookup, Option.bind_some] at hfree
          rw [Option.getD_some, ih htakes hfree q, Option.bind_some]
          simp [List.cons_prefix_cons]
        | none =>
          rw [Takes, hlookup, Option.getD_none] at htakes
          rw [Option.getD_none, ih htakes ?_ q, Option.bind_none]
          · by_cases hq : q = []
            · simp [hq]
            · rw [entryAt_leaf (Or.inl rfl) hq]
              simp [List.cons_prefix_cons]
          · intro c hc
            cases rest with
            | nil => cases hc; rfl
            | cons k rest => cases hc
      · rw [if_neg hm, if_neg (by simp [hm]), if_neg (by simp [List.cons_prefix_cons, hm])]

end Node

namespace Tree

variable {t t' : Tree} {path : String} {p q : Place} {bytes : ByteArray}

/-! ## Where a path leads

Following a path in a tree goes from directory to directory and back over dots. The way so far is a
trail of names; whether it can be gone depends on the directories only, and where it leads depends
on the names only. -/

/-- The names that a path starts from, latest first. -/
def startOf (t : Tree) (path : String) : List String :=
  if isAbsolute path then [] else t.workingDirectory.reverse

/-- The names after one more element of a path, latest first. -/
def advance (names : List String) (e : String) : List String :=
  if e = "" ∨ e = "." then names else if e = ".." then names.tail else e :: names

/-- The place that a path leads to if it leads anywhere. -/
def placeOf (t : Tree) (path : String) : Place :=
  ((elements path).foldl advance (t.startOf path)).reverse

/-- There is a directory before every element. -/
def Passable (t : Tree) : List String → List String → Prop
  | _, [] => True
  | names, e :: rest =>
    t.get? names.reverse = some .directory ∧ e.utf8ByteSize ≤ 255 ∧
      t.Passable (advance names e) rest

/-- A path leads to its place, where there may be nothing. -/
structure Leads (t : Tree) (path : String) : Prop where
  check : checkPath path = .ok ()
  passable : t.Passable (t.startOf path) (elements path)

/-- The nodes of a way, latest first, stand where their names lead. -/
def Trail (root : Node) : List (String × Node) → Prop
  | [] => True
  | (name, n) :: way =>
    Trail root way ∧ root.get? ((way.map Prod.fst).reverse ++ [name]) = some n

/-- The node at the end of a way. -/
def top (root : Node) (way : List (String × Node)) : Node := (way.head?.map Prod.snd).getD root

theorem Trail.get?_top {root : Node} : ∀ {way : List (String × Node)}, Trail root way →
    root.get? (way.map Prod.fst).reverse = some (top root way)
  | [], _ => rfl
  | (name, n) :: way, h => by
    rw [List.map_cons, List.reverse_cons]
    exact h.2

private theorem Trail.tail {root : Node} : ∀ {way : List (String × Node)}, Trail root way →
    Trail root way.tail
  | [], _ => trivial
  | _ :: _, h => h.1

private theorem Trail.push {root : Node} {way : List (String × Node)} (h : Trail root way)
    {name : String} {n : Node} {children : List (String × Node)}
    (htop : top root way = .directory children) (hn : children.lookup name = some n) :
    Trail root ((name, n) :: way) := by
  refine ⟨h, ?_⟩
  rw [Node.get?_append, h.get?_top, htop, Option.bind_some, Node.get?, hn]
  rfl

private theorem follow_eq_ok_iff {es : List String} {p : Place} {n? : Option Node} :
    ∀ {way : List (String × Node)}, Trail t.root way →
      (follow t.root way es = .ok (p, n?) ↔ t.Passable (way.map Prod.fst) es ∧
        p = (es.foldl advance (way.map Prod.fst)).reverse ∧ n? = t.root.get? p) := by
  induction es with
  | nil =>
    intro way hway
    have htop := hway.get?_top
    change Except.ok (_, some (top t.root way)) = _ ↔ _
    rw [← htop, Except.ok.injEq, Prod.mk.injEq, List.foldl_nil]
    constructor
    · rintro ⟨rfl, rfl⟩
      exact ⟨trivial, rfl, rfl⟩
    · rintro ⟨-, rfl, rfl⟩
      exact ⟨rfl, rfl⟩
  | cons e rest ih =>
    intro way hway
    have htop := hway.get?_top
    rw [follow, Passable, get?, htop, List.foldl_cons]
    have htop' : (way.head?.map Prod.snd).getD t.root = top t.root way := rfl
    rw [htop']
    cases hnode : top t.root way with
    | file bytes => simp [Node.entry]
    | directory children =>
      simp only [Option.map_some, Node.entry, true_and]
      by_cases hdot : e = "" ∨ e = "."
      · have hsize : e.utf8ByteSize ≤ 255 := by rcases hdot with rfl | rfl <;> decide
        rw [if_pos hdot, ih hway, advance, if_pos hdot]
        simp only [hsize, true_and]
      rw [if_neg hdot]
      by_cases hup : e = ".."
      · have hsize : e.utf8ByteSize ≤ 255 := by rw [hup]; decide
        rw [if_pos hup, ih hway.tail, advance, if_neg hdot, if_pos hup, List.map_tail]
        simp only [hsize, true_and]
      rw [if_neg hup]
      by_cases hsize : 255 < e.utf8ByteSize
      · simp [hsize, Nat.not_le.mpr hsize]
      rw [if_neg hsize, advance, if_neg hdot, if_neg hup]
      have hchild : t.root.get? (e :: way.map Prod.fst).reverse = children.lookup e := by
        rw [List.reverse_cons, Node.get?_append, htop, hnode, Option.bind_some, Node.get?]
        cases children.lookup e <;> rfl
      cases hlookup : children.lookup e with
      | some n =>
        simp only
        rw [ih (hway.push hnode hlookup)]
        simp only [List.map_cons, Nat.not_lt.mp hsize, true_and]
      | none =>
        rw [hlookup] at hchild
        cases rest with
        | nil =>
          simp only [List.isEmpty_nil, if_true, Passable, and_true, Nat.not_lt.mp hsize, true_and,
            List.foldl_nil, Except.ok.injEq, Prod.mk.injEq, List.reverse_cons]
          constructor
          · rintro ⟨rfl, rfl⟩
            exact ⟨rfl, by rw [← List.reverse_cons, hchild]⟩
          · rintro ⟨rfl, rfl⟩
            exact ⟨rfl, by rw [← List.reverse_cons, hchild]⟩
        | cons e' rest =>
          rw [List.isEmpty_cons, Passable, get?, hchild]
          simp

private theorem Trail.concat {n child : Node} {name : String} (hn : n.get? [name] = some child) :
    ∀ {way : List (String × Node)}, Trail child way → Trail n (way ++ [(name, child)])
  | [], _ => ⟨trivial, hn⟩
  | (m, c) :: way, h => by
    refine ⟨Trail.concat hn h.1, ?_⟩
    change n.get? (((way ++ [(name, child)]).map Prod.fst).reverse ++ [m]) = some c
    rw [List.map_append, List.map_singleton, List.reverse_append, List.reverse_singleton,
      List.append_assoc, Node.get?_append, hn, Option.bind_some]
    exact h.2

private theorem trail?_spec : ∀ {p : Place} {n : Node},
    match n.trail? p with
    | some way => Trail n way ∧ way.map Prod.fst = p.reverse
    | none => n.get? p = none
  | [], _ => ⟨trivial, rfl⟩
  | _ :: _, .file _ => rfl
  | name :: rest, .directory children => by
    rw [Node.trail?]
    cases hlookup : children.lookup name with
    | none => rw [Option.bind_eq_bind, Option.bind_none, Node.get?, hlookup]; rfl
    | some child =>
      have hchild : (Node.directory children).get? [name] = some child := by
        rw [Node.get?, hlookup]
        rfl
      have hrest := trail?_spec (p := rest) (n := child)
      cases htrail : child.trail? rest with
      | none =>
        rw [htrail] at hrest
        rw [Option.bind_eq_bind, Option.bind_some, htrail, Option.bind_eq_bind, Option.bind_none,
          Node.get?, hlookup]
        exact hrest
      | some way =>
        rw [htrail] at hrest
        rw [Option.bind_eq_bind, Option.bind_some, htrail]
        refine ⟨hrest.1.concat hchild, ?_⟩
        rw [List.map_append, List.map_singleton, hrest.2, List.reverse_cons]

/-- A path is located exactly if it leads to its place. -/
theorem locate_eq_ok_iff {n? : Option Node} :
    t.locate path = .ok (p, n?) ↔ t.Leads path ∧ p = t.placeOf path ∧ n? = t.root.get? p := by
  have hstart : t.startOf path = (if isAbsolute path then [] else t.workingDirectory).reverse := by
    rw [startOf]
    split <;> rfl
  have htrail := trail?_spec (p := if isAbsolute path then [] else t.workingDirectory) (n := t.root)
  rw [locate]
  cases hcheck : checkPath path with
  | error c =>
    refine ⟨nofun, fun h ↦ ?_⟩
    cases hcheck.symm.trans h.1.check
  | ok u =>
    rw [ok_bind]
    cases hway : t.root.trail? (if isAbsolute path then [] else t.workingDirectory) with
    | some way =>
      rw [hway, ← hstart] at htrail
      refine (follow_eq_ok_iff htrail.1).trans ?_
      rw [htrail.2]
      exact ⟨fun h ↦ ⟨⟨hcheck, h.1⟩, h.2⟩, fun h ↦ ⟨h.1.passable, h.2⟩⟩
    | none =>
      rw [hway] at htrail
      refine ⟨nofun, fun h ↦ ?_⟩
      have hpass := h.1.passable
      obtain ⟨e, rest, helems⟩ := List.exists_cons_of_ne_nil (elements_ne_nil path)
      rw [helems, Passable, hstart, List.reverse_reverse, get?, htrail] at hpass
      cases hpass.1

private theorem find_eq_ok_iff {n : Node} :
    t.find path = .ok (p, n) ↔ t.Leads path ∧ p = t.placeOf path ∧ t.root.get? p = some n := by
  rw [find]
  constructor
  · intro h
    obtain ⟨⟨p', n?⟩, hlocate, h⟩ := exists_of_bind_ok h
    obtain ⟨hleads, rfl, rfl⟩ := locate_eq_ok_iff.mp hlocate
    cases hnode : t.root.get? (t.placeOf path) with
    | none => rw [hnode] at h; cases h
    | some m => rw [hnode] at h; cases h; exact ⟨hleads, rfl, hnode⟩
  · rintro ⟨hleads, rfl, hnode⟩
    rw [locate_eq_ok_iff.mpr ⟨hleads, rfl, rfl⟩, ok_bind, hnode]
    rfl

theorem locate_of_checked {target : String} {x : Place × Option Node}
    (h : (do checkPath path; t.locate target) = .ok x) : t.locate target = .ok x :=
  (exists_of_bind_ok h).elim fun _ hlocate ↦ hlocate.2

/-- A file is read exactly if a path leads to its place. -/
theorem read_eq_ok_iff :
    t.read path = .ok bytes ↔ t.Leads path ∧ t.get? (t.placeOf path) = some (.file bytes) := by
  rw [read, get?]
  constructor
  · intro h
    split at h
    · rename_i hfind
      cases h
      obtain ⟨hleads, rfl, hnode⟩ := find_eq_ok_iff.mp hfind
      exact ⟨hleads, by rw [hnode]; rfl⟩
    · cases h
    · cases h
  · rintro ⟨hleads, hentry⟩
    obtain ⟨n, hnode, hn⟩ := Option.map_eq_some_iff.mp hentry
    rw [find_eq_ok_iff.mpr ⟨hleads, rfl, hnode⟩]
    cases n with
    | file b => cases hn; rfl
    | directory children => cases hn

/-! ## The last element of a path

A path in whose directory something can be made has a place: that of its directory, with the last
element behind it. Two paths that end in different names have different places. -/

private theorem endsAtDirectory_of_endsIn {name : String} (h : EndsIn path name) :
    endsAtDirectory path = false := by
  rw [endsAtDirectory, h.last]
  simp [h.ne_empty, h.ne_dot, h.ne_dots]

private theorem advance_of_endsIn {name : String} (h : EndsIn path name) (names : List String) :
    advance names name = name :: names := by
  rw [advance, if_neg (not_or.mpr ⟨h.ne_empty, h.ne_dot⟩), if_neg h.ne_dots]

theorem passable_concat {e : String} : ∀ {es names : List String},
    t.Passable names (es ++ [e]) ↔ t.Passable names es ∧
      t.get? (es.foldl advance names).reverse = some .directory ∧ e.utf8ByteSize ≤ 255
  | [], names => by simp [Passable]
  | e' :: es, names => by
    rw [List.cons_append, Passable, Passable, passable_concat, List.foldl_cons]
    simp only [and_assoc]

theorem exists_elements (path : String) : ∃ es e, elements path = es ++ [e] :=
  (List.eq_nil_or_concat' _).resolve_left (elements_ne_nil path)

private theorem Leads.exists_last (h : t.Leads path) : ∃ names e, (elements path).getLast? = some e
    ∧ t.get? names.reverse = some .directory ∧ t.placeOf path = (advance names e).reverse := by
  obtain ⟨es, e, helems⟩ := exists_elements path
  have hpass := h.passable
  rw [helems, passable_concat] at hpass
  refine ⟨es.foldl advance (t.startOf path), e, ?_, hpass.2.1, ?_⟩
  · rw [helems, List.getLast?_concat]
  · rw [placeOf, helems, List.foldl_concat]

/-- The place of a path that ends in a name ends in the same name. -/
theorem exists_placeOf {name : String} (h : EndsIn path name) (t : Tree) :
    ∃ p, t.placeOf path = p ++ [name] ∧ (t.Leads path → t.get? p = some .directory) := by
  obtain ⟨es, e, helems⟩ := exists_elements path
  have he : e = name := by
    have hlast := h.last
    rwa [helems, List.getLast?_concat, Option.some.injEq] at hlast
  refine ⟨(es.foldl Tree.advance (t.startOf path)).reverse, ?_, fun hleads ↦ ?_⟩
  · rw [Tree.placeOf, helems, List.foldl_concat, he, advance_of_endsIn h, List.reverse_cons]
  · have hpass := hleads.passable
    rw [helems, passable_concat] at hpass
    exact hpass.2.1

/-- Paths that end in different names have different places. -/
theorem placeOf_ne {other name name' : String} (h : EndsIn path name) (h' : EndsIn other name')
    (hne : name ≠ name') (t : Tree) : t.placeOf path ≠ t.placeOf other := by
  obtain ⟨p, hp, -⟩ := exists_placeOf h t
  obtain ⟨q, hq, -⟩ := exists_placeOf h' t
  rw [hp, hq]
  intro heq
  exact hne (List.singleton_inj.mp (List.append_inj_right' heq rfl))

/-! ## What operations change

`Changes P t t'` lets files change at the places of `P` and directories appear anywhere. It is
closed under doing one thing after the other, and a path that led somewhere leads there still, so
that the places in later statements can be taken in any of the trees. -/

private theorem takes_of_get? : ∀ {p : Place} {n m : Node}, n.get? p = some m → Node.Takes p n
  | [], _, _, _ => trivial
  | _ :: _, .file _, _, h => by cases h
  | name :: p, .directory children, m, h => by
    rw [Node.get?] at h
    obtain ⟨child, hchild, h⟩ := Option.bind_eq_some_iff.mp h
    rw [Node.Takes, hchild]
    exact takes_of_get? h

private theorem takes_concat {name : String} : ∀ {p : Place} {n : Node}
    {children : List (String × Node)},
    n.get? p = some (.directory children) → Node.Takes (p ++ [name]) n
  | [], _, _, h => by
    cases h
    trivial
  | _ :: _, .file _, _, h => by cases h
  | m :: p, .directory siblings, children, h => by
    rw [Node.get?] at h
    obtain ⟨child, hchild, h⟩ := Option.bind_eq_some_iff.mp h
    rw [List.cons_append, Node.Takes, hchild]
    exact takes_concat h

/-- On the way to a place there are directories only. -/
theorem get?_of_above {e : Entry} (h : t.get? p = some e) (hq : q <+: p) (hne : q ≠ p) :
    t.get? q = some .directory := by
  obtain ⟨rest, rfl⟩ := hq
  rw [get?, Node.get?_append] at h
  rw [get?]
  cases hnode : t.root.get? q with
  | none => rw [hnode] at h; cases h
  | some n =>
    cases n with
    | directory children => rfl
    | file bytes =>
      rw [hnode, Option.bind_some] at h
      cases rest with
      | nil => exact absurd (List.append_nil q).symm hne
      | cons name rest => cases h

/-- Putting an entry where there is no directory, with directories on the way, changes nothing
else. -/
theorem get?_set_of_takes (htakes : Node.Takes p t.root) (hfree : t.get? p ≠ some .directory)
    (habove : ∀ q, q <+: p → q ≠ p → t.get? q = some .directory) (e : Entry) (q : Place) :
    (t.set p e).get? q = if q = p then some e else t.get? q := by
  have hput := Node.entryAt_put (e := e) htakes
    (fun children hc ↦ absurd (by rw [get?, hc]; rfl) hfree) q
  refine hput.trans ?_
  by_cases hq : q = p
  · rw [if_pos hq, if_pos hq]
  · rw [if_neg hq, if_neg hq]
    split
    · rename_i hbelow
      exact (habove q hbelow hq).symm
    · rfl

theorem get?_set {name : String} (hp : t.get? p = some .directory)
    (hfree : t.get? (p ++ [name]) ≠ some .directory) (e : Entry) (q : Place) :
    (t.set (p ++ [name]) e).get? q = if q = p ++ [name] then some e else t.get? q := by
  have htakes : Node.Takes (p ++ [name]) t.root := by
    obtain ⟨n, hn, hentry⟩ := Option.map_eq_some_iff.mp hp
    cases n with
    | file bytes => cases hentry
    | directory children => exact takes_concat hn
  refine get?_set_of_takes htakes hfree (fun q hbelow hq ↦ ?_) e q
  by_cases hqp : q = p
  · rw [hqp, hp]
  · exact get?_of_above hp ((List.prefix_concat_iff.mp hbelow).resolve_left hq) hqp

private theorem get?_set_of_file (hp : t.get? p = some (.file bytes)) (e : Entry) (q : Place) :
    (t.set p e).get? q = if q = p then some e else t.get? q := by
  have htakes : Node.Takes p t.root := by
    obtain ⟨n, hn, -⟩ := Option.map_eq_some_iff.mp hp
    exact takes_of_get? hn
  exact get?_set_of_takes htakes (by simp [hp]) (fun q hq hne ↦ get?_of_above hp hq hne) e q

/-- What operations leave of a tree: the working directory, all directories, and what stands at the
places outside `P`, except that there may be a new directory where there was nothing. -/
structure Changes (P : Place → Prop) (t t' : Tree) : Prop where
  workingDirectory : t'.workingDirectory = t.workingDirectory
  directory : ∀ {q : Place}, t.get? q = some .directory → t'.get? q = some .directory
  other : ∀ {q : Place}, ¬P q →
    t'.get? q = t.get? q ∨ t.get? q = none ∧ t'.get? q = some .directory

namespace Changes

variable {P Q : Place → Prop} {t'' : Tree}

theorem refl (P : Place → Prop) (t : Tree) : Changes P t t := ⟨rfl, id, fun _ ↦ Or.inl rfl⟩

theorem mono (h : Changes P t t') (hPQ : ∀ q, P q → Q q) : Changes Q t t' :=
  ⟨h.workingDirectory, h.directory, fun hq ↦ h.other fun hp ↦ hq (hPQ _ hp)⟩

theorem trans (h : Changes P t t') (h' : Changes P t' t'') : Changes P t t'' where
  workingDirectory := h'.workingDirectory.trans h.workingDirectory
  directory hq := h'.directory (h.directory hq)
  other {q} hq := by
    rcases h.other hq with hsame | ⟨hnone, hnew⟩
    · rw [← hsame]
      exact h'.other hq
    · exact Or.inr ⟨hnone, h'.directory hnew⟩

theorem startOf_eq (h : Changes P t t') (path : String) : t'.startOf path = t.startOf path := by
  rw [startOf, startOf, h.workingDirectory]

theorem placeOf_eq (h : Changes P t t') (path : String) : t'.placeOf path = t.placeOf path := by
  rw [placeOf, placeOf, h.startOf_eq]

private theorem passable (h : Changes P t t') : ∀ {es names : List String},
    t.Passable names es → t'.Passable names es
  | [], _, _ => trivial
  | _ :: _, _, hpass => ⟨h.directory hpass.1, hpass.2.1, h.passable hpass.2.2⟩

/-- A path that leads to its place still does. -/
theorem leads (h : Changes P t t') (hleads : t.Leads path) : t'.Leads path :=
  ⟨hleads.check, by rw [h.startOf_eq]; exact h.passable hleads.passable⟩

/-- A file outside of `P` is read as before. -/
theorem read (h : Changes P t t') (hread : t.read path = .ok bytes) (hp : ¬P (t.placeOf path)) :
    t'.read path = .ok bytes := by
  obtain ⟨hleads, hfile⟩ := read_eq_ok_iff.mp hread
  refine read_eq_ok_iff.mpr ⟨h.leads hleads, ?_⟩
  rw [h.placeOf_eq]
  rcases h.other hp with hsame | ⟨hnone, -⟩
  · rw [hsame, hfile]
  · rw [hnone] at hfile
    cases hfile

/-- A file outside of `P` was there before. -/
theorem file (h : Changes P t t') (hfile : t'.get? p = some (.file bytes)) (hp : ¬P p) :
    t.get? p = some (.file bytes) := by
  rcases h.other hp with hsame | ⟨-, hnew⟩
  · rw [← hsame, hfile]
  · rw [hnew] at hfile
    cases hfile

end Changes

/-- An operation that puts an entry at one place changes nothing else. -/
theorem changes_of_get? {e : Entry} (hworking : t'.workingDirectory = t.workingDirectory)
    (hfree : t.get? p ≠ some .directory)
    (hget : ∀ q, t'.get? q = if q = p then some e else t.get? q) : Changes (· = p) t t' := by
  refine ⟨hworking, fun {q} hq ↦ ?_, fun {q} hq ↦ Or.inl (by rw [hget, if_neg hq])⟩
  have hne : q ≠ p := by
    rintro rfl
    exact hfree hq
  rw [hget, if_neg hne, hq]

private theorem Leads.exists_parent (h : t.Leads path) (hnone : t.get? (t.placeOf path) = none) :
    ∃ p name, t.placeOf path = p ++ [name] ∧ t.get? p = some .directory := by
  obtain ⟨names, e, -, hdir, hplace⟩ := h.exists_last
  rw [hplace] at hnone ⊢
  by_cases hdot : e = "" ∨ e = "."
  · rw [advance, if_pos hdot, hdir] at hnone
    cases hnone
  by_cases hup : e = ".."
  · rw [advance, if_neg hdot, if_pos hup] at hnone
    cases names with
    | nil => rw [List.tail_nil, hdir] at hnone; cases hnone
    | cons name names =>
      rw [List.reverse_cons] at hdir
      rw [List.tail_cons, get?_of_above hdir (List.prefix_append _ _) (by simp)] at hnone
      cases hnone
  · exact ⟨names.reverse, e, by rw [advance, if_neg hdot, if_neg hup, List.reverse_cons], hdir⟩

private theorem changes_makeDirectory (h : t.makeDirectory path = .ok t') :
    Changes (fun _ ↦ False) t t' := by
  rw [makeDirectory] at h
  split at h
  · cases h
  · cases h
  · rename_i place hlocate
    cases h
    obtain ⟨hleads, hat, hnode⟩ := locate_eq_ok_iff.mp (locate_of_checked hlocate)
    have hnone : t.get? (t.placeOf (trimSlashes path)) = none := by
      rw [get?, ← hat, ← hnode]
      rfl
    obtain ⟨p, name, hplace, hdir⟩ := hleads.exists_parent hnone
    rw [hat]
    rw [hplace] at hnone ⊢
    have hset := get?_set (e := .directory) hdir (by rw [hnone]; simp)
    refine ⟨rfl, fun {q} hq ↦ ?_, fun {q} _ ↦ ?_⟩
    · rw [hset]
      split
      · rfl
      · exact hq
    · rw [hset]
      split
      · rename_i hq
        exact Or.inr ⟨by rw [hq, hnone], rfl⟩
      · exact Or.inl rfl

private theorem changes_makeDirectoriesUpTo : ∀ {n : Nat} {t : Tree} {path : String},
    Changes (fun _ ↦ False) t (makeDirectoriesUpTo n t path).2
  | 0, t, _ => .refl _ t
  | n + 1, t, path => by
    unfold makeDirectoriesUpTo
    split
    · exact .refl _ t
    · exact .refl _ t
    · have habove : Changes (fun _ ↦ False) t (if parentPath path = "" then (.ok (), t)
          else makeDirectoriesUpTo n t (parentPath path)).2 := by
        split
        · exact .refl _ t
        · exact changes_makeDirectoriesUpTo
      dsimp only
      -- only what the directories above did to the tree matters, not how it was done
      generalize (if parentPath path = "" then ((.ok () : Except FileError Unit), t)
        else makeDirectoriesUpTo n t (parentPath path)) = above at habove ⊢
      obtain ⟨res, t₁⟩ := above
      cases res with
      | error e => exact habove
      | ok u =>
        dsimp only
        cases hmake : t₁.makeDirectory path with
        | ok t₂ => exact habove.trans (changes_makeDirectory hmake)
        | error e =>
          dsimp only
          split <;> exact habove

/-- Making directories changes no file. -/
theorem changes_makeDirectories (t : Tree) (path : String) :
    Changes (fun _ ↦ False) t (t.makeDirectories path).2 :=
  changes_makeDirectoriesUpTo

/-! ## Writing in two steps

A file is opened, which empties it or makes it, and is filled later at the place that the opening
gave, whatever has become of the tree in between. Writing at once is opening and filling right after
each other. -/

/-- Opening a file empties the file at its place, which may be new, and changes nothing else. -/
theorem create_eq_ok {name : String} (hend : EndsIn path name) (h : t.create path = .ok (p, t')) :
    t.Leads path ∧ p = t.placeOf path ∧ Changes (· = p) t t' ∧
      t'.get? p = some (.file .empty) := by
  rw [create, endsAtDirectory_of_endsIn hend] at h
  simp only [Bool.false_eq_true, if_false] at h
  obtain ⟨q, hplace, hdir⟩ := exists_placeOf hend t
  split at h
  · cases h
  · cases h
  · rename_i place n? hnot hlocate
    cases h
    obtain ⟨hleads, rfl, hnode⟩ := locate_eq_ok_iff.mp (locate_of_checked hlocate)
    have hfree : t.get? (t.placeOf path) ≠ some .directory := by
      rw [get?, ← hnode]
      intro hd
      obtain ⟨n, rfl, hn⟩ := Option.map_eq_some_iff.mp hd
      cases n with
      | file b => cases hn
      | directory children => exact hnot _ rfl
    have hset : ∀ q, (t.set (t.placeOf path) (.file .empty)).get? q
        = if q = t.placeOf path then some (.file .empty) else t.get? q := by
      rw [hplace] at hfree ⊢
      exact get?_set (hdir hleads) hfree _
    exact ⟨hleads, rfl, changes_of_get? rfl hfree hset, by rw [hset, if_pos rfl]⟩

theorem fill_of_file {old : ByteArray} (h : t.get? p = some (.file old)) (bytes : ByteArray) :
    t.fill p bytes = t.set p (.file (overlay bytes old)) := by
  rw [fill, h]

theorem get?_fill {old : ByteArray} (h : t.get? p = some (.file old)) (bytes : ByteArray)
    (q : Place) :
    (t.fill p bytes).get? q = if q = p then some (.file (overlay bytes old)) else t.get? q := by
  rw [fill_of_file h]
  exact get?_set_of_file h _ q

/-- Writing into an open file changes this file and nothing else. -/
theorem changes_fill (t : Tree) (p : Place) (bytes : ByteArray) :
    Changes (· = p) t (t.fill p bytes) := by
  cases h : t.get? p with
  | none =>
    rw [fill, h]
    exact .refl _ t
  | some e =>
    cases e with
    | directory =>
      rw [fill, h]
      exact .refl _ t
    | file old =>
      refine changes_of_get? ?_ (by simp [h]) (get?_fill h bytes)
      rw [fill_of_file h]
      rfl

theorem overlay_empty (bytes : ByteArray) : overlay bytes .empty = bytes := by
  rw [overlay, ByteArray.ext_iff]
  simp

theorem size_overlay (bytes old : ByteArray) :
    (overlay bytes old).size = max bytes.size old.size := by
  rw [overlay, ByteArray.size_append, ByteArray.size_extract]
  omega

theorem getElem?_data_overlay (bytes old : ByteArray) (n : Nat) :
    (overlay bytes old).data[n]? = if n < bytes.size then bytes.data[n]? else old.data[n]? := by
  have hdata : (overlay bytes old).data
      = bytes.data ++ old.data.extract bytes.size old.size := by
    rw [overlay, ByteArray.data_append, ByteArray.data_extract]
  rw [hdata, Array.getElem?_append]
  by_cases hn : n < bytes.size
  · exact (if_pos hn).trans (if_pos hn).symm
  · have hbehind : (old.data.extract bytes.size old.size)[n - bytes.size]? = old.data[n]? := by
      rw [Array.getElem?_extract, Nat.add_sub_of_le (Nat.le_of_not_lt hn)]
      split
      · rfl
      · have hsize : old.data.size = old.size := ByteArray.size_data
        rw [Array.getElem?_eq_none (by omega)]
    exact (if_neg hn).trans (hbehind.trans (if_neg hn).symm)

private theorem write_eq_ok {name : String} (hend : EndsIn path name)
    (h : t.write path bytes = .ok t') :
    Changes (· = t.placeOf path) t t' ∧ t'.read path = .ok bytes := by
  rw [write] at h
  cases hcreate : t.create path with
  | error e => rw [hcreate] at h; cases h
  | ok x =>
    obtain ⟨p, t₁⟩ := x
    rw [hcreate] at h
    cases h
    obtain ⟨hleads, rfl, hopened, hempty⟩ := create_eq_ok hend hcreate
    have hchanges := hopened.trans (changes_fill t₁ _ bytes)
    refine ⟨hchanges, read_eq_ok_iff.mpr ⟨hchanges.leads hleads, ?_⟩⟩
    rw [hchanges.placeOf_eq, get?_fill hempty, if_pos rfl, overlay_empty]

/-- Planting a file changes the file at its place, which is then read, or it fails and changes no
file. -/
theorem plant_file {name : String} (hend : EndsIn path name) (t : Tree) (bytes : ByteArray) :
    (∃ t', t.plant path (.file bytes) = (.ok (), t') ∧ Changes (· = t.placeOf path) t t' ∧
      t'.read path = .ok bytes) ∨
    ∃ e t', t.plant path (.file bytes) = (.error e, t') ∧ Changes (fun _ ↦ False) t t' := by
  have hmade := changes_makeDirectories t (Files.directory path)
  unfold plant
  cases hmake : t.makeDirectories (Files.directory path) with
  | mk res t₁ =>
    rw [hmake] at hmade
    cases res with
    | error e => exact Or.inr ⟨e, t₁, rfl, hmade⟩
    | ok u =>
      cases hwrite : t₁.write path bytes with
      | error e =>
        simp only [hwrite]
        exact Or.inr ⟨e, t₁, rfl, hmade⟩
      | ok t₂ =>
        obtain ⟨hchanges, hread⟩ := write_eq_ok hend hwrite
        rw [hmade.placeOf_eq] at hchanges
        simp only [hwrite]
        exact Or.inl ⟨t₂, rfl, (hmade.mono fun _ ↦ False.elim).trans hchanges, hread⟩

end Tree

end Flowgraph.Files
