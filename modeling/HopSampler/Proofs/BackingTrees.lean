import HopSampler.Proofs.Shares

/-!
# Trees of backings

Partitions are sources again, so a backing is a tree: leaves that answer somehow, and partitions
over smaller trees. What the leaves answer is left to an environment, which is not trusted in
anything: a block can have any shape, any answer can be a failure, and it can take any time.

Which leaves are asked for what does not depend on their answers (`Backing.asks`). Everything about
a fetch of a tree is said in terms of these asks: it *collects* them (`Collects`). It succeeds in
time when they all do, what it writes is what their blocks write, and a failure in time is one of
theirs. A leaf collects itself, and collecting goes through relabelling and through awaiting
several, so it goes through the tree (`Backing.collects_fetchPlaced`). And other leaves, or other
requests to the same leaves, have no part in it (`Backing.fetchPlaced_congr`).
-/

-- Sums start from the numeral, also where zero comes with more structure.
attribute [local instance (high)] Zero.ofOfNat0

namespace HopSampler

/-- A backing: leaves, known by name, under partitions. -/
inductive Backing (κ : Type) where
  | leaf (name : κ) (placement : Placement) (numRows : Nat)
  | parts (children : List (Backing κ))

namespace Backing

variable {κ : Type}

/-- What a leaf answers when it is asked for rows. -/
abbrev Env (κ : Type) := κ → List Nat → Delayed Matrix

/-- A property of the leaves that passes from the children to their parent holds of every tree. -/
@[elab_as_elim, induction_eliminator]
theorem induction {motive : Backing κ → Prop}
    (leaf : ∀ name placement numRows, motive (.leaf name placement numRows))
    (parts : ∀ children, (∀ child ∈ children, motive child) → motive (.parts children))
    (b : Backing κ) : motive b :=
  @Backing.rec κ motive (fun children ↦ ∀ child ∈ children, motive child) leaf parts
    (fun _ hmem ↦ absurd hmem List.not_mem_nil)
    (fun _ _ hchild hrest ↦ List.forall_mem_cons.2 ⟨hchild, hrest⟩) b

/-! ### Trees as sources -/

mutual

/-- The leaves in order, with the number of rows of each. -/
def leaves : Backing κ → List (κ × Nat)
  | .leaf name _ numRows => [(name, numRows)]
  | .parts children => leavesOf children

/-- The leaves of trees end to end. -/
def leavesOf : List (Backing κ) → List (κ × Nat)
  | [] => []
  | child :: rest => leaves child ++ leavesOf rest

end

/-- The number of rows of a tree. -/
def numRows (b : Backing κ) : Nat := (b.leaves.map (·.2)).sum

mutual

/-- The source that a tree of one width is. -/
def source (width : Nat) (env : Env κ) : Backing κ → RowSource
  | .leaf name placement numRows => ⟨placement, numRows, width, env name⟩
  | .parts children => Partitions.toSource ⟨width, sources width env children⟩

/-- The sources that trees of one width are. -/
def sources (width : Nat) (env : Env κ) : List (Backing κ) → List RowSource
  | [] => []
  | child :: rest => source width env child :: sources width env rest

end

variable {width : Nat} {env : Env κ}

theorem sources_eq (children : List (Backing κ)) :
    sources width env children = children.map (source width env) := by
  induction children with
  | nil => rfl
  | cons child rest ih => rw [sources, ih, List.map_cons]

theorem numRows_parts (children : List (Backing κ)) :
    (parts children).numRows = (children.map numRows).sum := by
  rw [numRows, leaves]
  induction children with
  | nil => rfl
  | cons child rest ih =>
    rw [leavesOf, List.map_append, List.sum_append, ih, List.map_cons, List.sum_cons, numRows]

theorem width_source (b : Backing κ) : (b.source width env).width = width := by
  cases b <;> rfl

theorem numRows_source (b : Backing κ) : (b.source width env).numRows = b.numRows := by
  induction b with
  | leaf name placement numRows => rfl
  | parts children ih =>
    show ((sources width env children).map (·.numRows)).sum = _
    rw [numRows_parts, sources_eq, List.map_map]
    exact congrArg List.sum (List.map_congr_left ih)

/-- Trees are laid end to end as any sources are, if there is one. -/
theorem ofParts_sources {children : List (Backing κ)} (hne : children ≠ []) :
    Partitions.ofParts (sources width env children) =
      .ok ⟨width, sources width env children⟩ := by
  obtain ⟨first, rest, rfl⟩ := List.exists_cons_of_ne_nil hne
  have hnone : (sources width env (first :: rest)).find?
      (·.width ≠ (first.source width env).width) = none := by
    refine List.find?_eq_none.2 fun part hpart ↦ ?_
    rw [sources_eq] at hpart
    obtain ⟨child, -, rfl⟩ := List.mem_map.1 hpart
    simp only [width_source, ne_eq, not_true_eq_false, decide_false, Bool.false_eq_true,
      not_false_eq_true]
  rw [sources] at hnone ⊢
  rw [Partitions.ofParts, hnone, width_source]

/-! ### What the leaves are asked -/

/-- What a leaf is asked: row numbers there, with the positions the rows are wanted at. -/
structure Ask (κ : Type) where
  leaf : κ
  request : List (Nat × Nat)

namespace Ask

/-- The row numbers. -/
def rows (a : Ask κ) : List Nat := a.request.map (·.2)

/-- The positions. -/
def positions (a : Ask κ) : List Nat := a.request.map (·.1)

/-- The block the leaf answers with, if it has the shape that was asked for. -/
def fetch (width : Nat) (env : Env κ) (a : Ask κ) : Delayed (List Nat × Matrix) :=
  ((env a.leaf a.rows).check (RowSource.checkBlock a.rows.length width)).map (a.positions, ·)

/-- The leaf fails, or answers with a block of another shape. -/
def Spoilt (width : Nat) (env : Env κ) (a : Ask κ) : Prop :=
  ∀ block, (env a.leaf a.rows).result = .ok block →
    ¬(block.height = a.rows.length ∧ block.width = width)

/-- The same rows, wanted elsewhere. -/
def moved (f : Nat → Nat) (a : Ask κ) : Ask κ := ⟨a.leaf, Partitions.moved f a.request⟩

end Ask

/-- **What is asked of a tree is asked of its leaves**, of each its share. A leaf none of whose rows
is wanted is not asked. -/
def asks (b : Backing κ) (request : List (Nat × Nat)) : List (Ask κ) :=
  (Partitions.shares (·.2) b.leaves request).map fun s ↦ ⟨s.1.1, s.2⟩

variable {b : Backing κ} {request : List (Nat × Nat)} {a : Ask κ}

/-- Whoever is asked is asked for some of its rows. -/
theorem of_mem_asks (ha : a ∈ b.asks request) : a.request ≠ [] ∧
    ∃ height, (a.leaf, height) ∈ b.leaves ∧ ∀ row ∈ a.rows, row < height := by
  obtain ⟨s, hs, rfl⟩ := List.mem_map.1 ha
  obtain ⟨hleaf, hne, hlt⟩ := Partitions.of_mem_shares hs
  exact ⟨hne, s.1.2, hleaf, List.forall_mem_map.2 hlt⟩

/-- And every row that is wanted is wanted from one of them. -/
theorem perm_asks (hrange : ∀ q ∈ request, q.2 < b.numRows) :
    ((b.asks request).flatMap Ask.positions).Perm (request.map (·.1)) := by
  rw [asks, List.flatMap_map]
  exact Partitions.perm_shares hrange

theorem asks_leaf (name : κ) (placement : Placement) (height : Nat) (hne : request ≠ [])
    (hrange : ∀ q ∈ request, q.2 < height) :
    (leaf name placement height).asks request = [⟨name, request⟩] := by
  have hall : Partitions.upTo height request = request :=
    List.filter_eq_self.2 fun q hq ↦ decide_eq_true (hrange q hq)
  simp only [asks, leaves, Partitions.shares, hall, if_neg hne, List.append_nil, List.map_cons,
    List.map_nil]

theorem asks_nil (b : Backing κ) : b.asks [] = [] := by
  rw [asks, Partitions.shares_nil]
  rfl

theorem asks_moved (f : Nat → Nat) (b : Backing κ) (request : List (Nat × Nat)) :
    b.asks (Partitions.moved f request) = (b.asks request).map (Ask.moved f) := by
  rw [asks, asks, Partitions.shares_moved, List.map_map, List.map_map]
  rfl

/-- Partitions pass on what they are asked. -/
theorem asks_parts (children : List (Backing κ)) (request : List (Nat × Nat)) :
    (parts children).asks request =
      (Partitions.shares numRows children request).flatMap fun s ↦ s.1.asks s.2 := by
  rw [asks, leaves]
  induction children generalizing request with
  | nil => rfl
  | cons child rest ih =>
    rw [Partitions.flatMap_shares_cons (f := asks) (asks_nil child), leavesOf,
      Partitions.shares_append, List.map_append, ← ih]
    rfl

end Backing

/-! ### Blocks at positions -/

/-- The same block, wanted elsewhere. -/
def Matrix.moved (f : Nat → Nat) (placed : List Nat × Matrix) : List Nat × Matrix :=
  (placed.1.map f, placed.2)

theorem Matrix.writes_moved (f : Nat → Nat) (placed : List Nat × Matrix) :
    writes (moved f placed) = (writes placed).map (Prod.map f id) :=
  List.zip_map_left

theorem RowSource.fetchPlaced_moved (source : RowSource) (width : Nat) (f : Nat → Nat)
    (request : List (Nat × Nat)) :
    source.fetchPlaced width (Partitions.moved f request) =
      (source.fetchPlaced width request).map (Matrix.moved f) := by
  rw [fetchPlaced, fetchPlaced, Delayed.map_map, Partitions.map_snd_moved, Partitions.map_fst_moved]
  rfl

/-- What is fetched for a request has a row for each of its places. -/
theorem RowSource.shape_of_fetchPlaced {source : RowSource} {width : Nat}
    {request : List (Nat × Nat)} {limit : Option Nat} {placed : List Nat × Matrix}
    (h : (source.fetchPlaced width request).Gives limit placed) :
    placed.2.height = placed.1.length ∧ placed.2.width = width := by
  obtain ⟨hblock, hpositions⟩ := fetchPlaced_gives_iff.1 h
  obtain ⟨block, -, hcheck⟩ := Delayed.check_gives_iff.1 hblock
  rw [checkBlock, ite_ok_eq_ok_iff] at hcheck
  obtain ⟨⟨hheight, hwidth⟩, hplaced⟩ := hcheck
  obtain rfl : block = placed.2 := Except.ok.inj hplaced
  rw [hpositions, List.length_map]
  exact ⟨hheight.trans (List.length_map _), hwidth⟩

namespace Backing.Ask

variable {κ : Type} {width : Nat} {env : Env κ}

/-- The leaf as a source, asked on its own. -/
theorem fetch_eq (a : Ask κ) (placement : Placement) (numRows : Nat) :
    a.fetch width env =
      RowSource.fetchPlaced ⟨placement, numRows, width, env a.leaf⟩ width a.request :=
  rfl

theorem shape_of_fetch {a : Ask κ} {limit : Option Nat} {placed : List Nat × Matrix}
    (h : (a.fetch width env).Gives limit placed) :
    placed.2.height = placed.1.length ∧ placed.2.width = width := by
  rw [fetch_eq a .zeroCopy 0] at h
  exact RowSource.shape_of_fetchPlaced h

theorem exists_fetch_gives_iff {a : Ask κ} {limit : Option Nat} :
    (∃ placed, (a.fetch width env).Gives limit placed) ↔
      ¬a.Spoilt width env ∧ ∀ m ∈ limit, (env a.leaf a.rows).moment ≤ m := by
  simp only [fetch, Delayed.map_gives_iff, Delayed.check_gives_iff, RowSource.checkBlock,
    ite_ok_eq_ok_iff, Spoilt, not_forall, not_not]
  constructor
  · rintro ⟨_, block, ⟨answer, ⟨hresult, htime⟩, hshape, -⟩, -⟩
    exact ⟨⟨answer, hresult, hshape⟩, htime⟩
  · rintro ⟨⟨answer, hresult, hshape⟩, htime⟩
    exact ⟨_, answer, ⟨answer, ⟨hresult, htime⟩, hshape, rfl⟩, rfl⟩

theorem spoilt_of_failsBy {a : Ask κ} {limit : Option Nat}
    (h : (a.fetch width env).FailsBy limit) :
    a.Spoilt width env ∧ ∀ m ∈ limit, (env a.leaf a.rows).moment ≤ m := by
  refine ⟨fun block hresult hshape ↦ ?_, h.inTime⟩
  obtain ⟨placed, hplaced⟩ := exists_fetch_gives_iff.2
    ⟨fun hspoilt ↦ hspoilt block hresult hshape, h.inTime⟩
  obtain ⟨e, he⟩ := h.result
  exact nomatch he.symm.trans hplaced.result

theorem fetch_moved (f : Nat → Nat) (a : Ask κ) :
    (a.moved f).fetch width env = (a.fetch width env).map (Matrix.moved f) := by
  rw [fetch_eq _ .zeroCopy 0, fetch_eq _ .zeroCopy 0]
  exact RowSource.fetchPlaced_moved ..

end Backing.Ask

/-! ### Collecting -/

/-- A fetch is put together from others. -/
structure Collects (limit : Option Nat) (ds : List (Delayed (List Nat × Matrix)))
    (d : Delayed (List Nat × Matrix)) : Prop where
  /-- It succeeds in time when all of them do. -/
  gives : (∀ e ∈ ds, ∃ placed, e.Gives limit placed) → ∃ placed, d.Gives limit placed
  /-- It writes what their blocks write. -/
  comes : ∀ placed, d.Gives limit placed → ∃ blocks,
    List.Forall₂ (fun e block ↦ e.Gives limit block) ds blocks ∧
      (blocks.flatMap Matrix.writes).Perm (Matrix.writes placed)
  /-- It fails in time only when one of them does. -/
  fails : d.FailsBy limit → ∃ e ∈ ds, e.FailsBy limit

namespace Collects

variable {limit : Option Nat} {ds : List (Delayed (List Nat × Matrix))}
  {d : Delayed (List Nat × Matrix)}

/-- What is there at once and writes nothing collects nothing. -/
theorem nothing {placed : List Nat × Matrix} (h : placed.1 = []) :
    Collects limit [] (.now (.ok placed)) where
  gives _ := ⟨placed, Delayed.now_gives_iff.2 rfl⟩
  comes := by
    intro other hother
    obtain rfl : placed = other := Except.ok.inj (Delayed.now_gives_iff.1 hother)
    refine ⟨[], .nil, ?_⟩
    rw [Matrix.writes, h]
    exact .nil
  fails h := absurd h.result.choose_spec nofun

/-- A fetch collects itself. -/
theorem single (d : Delayed (List Nat × Matrix)) : Collects limit [d] d where
  gives h := h d List.mem_cons_self
  comes placed hplaced := by
    refine ⟨[placed], .cons hplaced .nil, ?_⟩
    rw [List.flatMap_singleton]
  fails h := ⟨d, List.mem_cons_self, h⟩

/-- Where the rows are wanted makes no difference. -/
theorem moved (h : Collects limit ds d) (f : Nat → Nat) :
    Collects limit (ds.map (Delayed.map (Matrix.moved f))) (d.map (Matrix.moved f)) where
  gives hall := by
    obtain ⟨placed, hplaced⟩ := h.gives fun e he ↦ by
      obtain ⟨_, hmoved⟩ := hall _ (List.mem_map_of_mem he)
      obtain ⟨placed, hplaced, -⟩ := Delayed.map_gives_iff.1 hmoved
      exact ⟨placed, hplaced⟩
    exact ⟨_, Delayed.map_gives_iff.2 ⟨placed, hplaced, rfl⟩⟩
  comes := by
    intro _ hmoved
    obtain ⟨placed, hplaced, rfl⟩ := Delayed.map_gives_iff.1 hmoved
    obtain ⟨blocks, hblocks, hwrites⟩ := h.comes placed hplaced
    refine ⟨blocks.map (Matrix.moved f), ?_, ?_⟩
    · rw [List.forall₂_map_left_iff, List.forall₂_map_right_iff]
      exact hblocks.imp fun e block hblock ↦ Delayed.map_gives_iff.2 ⟨block, hblock, rfl⟩
    · rw [Matrix.writes_moved, List.flatMap_map]
      simp only [Matrix.writes_moved]
      rw [← List.map_flatMap]
      exact hwrites.map _
  fails hfails := by
    obtain ⟨e, he, hfails⟩ := h.fails (Delayed.failsBy_map_iff.1 hfails)
    exact ⟨_, List.mem_map_of_mem he, Delayed.failsBy_map_iff.2 hfails⟩

variable {dss : List (List (Delayed (List Nat × Matrix)))}
  {es : List (Delayed (List Nat × Matrix))}

theorem exists_blocks (h : List.Forall₂ (Collects limit) dss es) {blocks : List (List Nat × Matrix)}
    (hblocks : List.Forall₂ (fun e block ↦ e.Gives limit block) es blocks) :
    ∃ parts, List.Forall₂ (fun e block ↦ e.Gives limit block) dss.flatten parts ∧
      (parts.flatMap Matrix.writes).Perm (blocks.flatMap Matrix.writes) := by
  induction h generalizing blocks with
  | nil =>
    cases hblocks
    exact ⟨[], .nil, .nil⟩
  | @cons ds e dss es hfirst _ ih =>
    obtain ⟨block, rest, hblock, hrest, rfl⟩ := List.forall₂_cons_left_iff.1 hblocks
    obtain ⟨parts, hparts, hwrites⟩ := hfirst.comes block hblock
    obtain ⟨others, hothers, hwrites'⟩ := ih hrest
    refine ⟨parts ++ others, List.rel_append hparts hothers, ?_⟩
    rw [List.flatMap_append, List.flatMap_cons]
    exact hwrites.append hwrites'

theorem exists_collected (h : List.Forall₂ (Collects limit) dss es)
    {e : Delayed (List Nat × Matrix)} (he : e ∈ es) :
    ∃ ds, Collects limit ds e ∧ ∀ d ∈ ds, d ∈ dss.flatten := by
  have hflip : List.Forall₂ (fun e ds ↦ Collects limit ds e) es dss := h.flip
  obtain ⟨ds, hds, hcollects⟩ := exists_partner_of_mem hflip he
  exact ⟨ds, hcollects, fun d hd ↦ List.mem_flatten.2 ⟨ds, hds, hd⟩⟩

/-- **Several are awaited and put together**: where the blocks have a row for each of their places
and take up every position once, what is put together collects what they collect. -/
theorem all (h : List.Forall₂ (Collects limit) dss es) {size height width : Nat}
    (hshape : ∀ e ∈ es, ∀ placed, e.Gives limit placed →
      placed.2.height = placed.1.length ∧ placed.2.width = width)
    (hplaces : ∀ blocks, List.Forall₂ (fun e block ↦ e.Gives limit block) es blocks →
      (blocks.flatMap (·.1)).Perm (List.range height)) :
    Collects limit dss.flatten ((Delayed.all size es).map fun blocks ↦
      (List.range height, .scatter height width blocks)) where
  gives hall := by
    have hgives : ∀ e ∈ es, ∃ block, e.Gives limit block := fun e he ↦ by
      obtain ⟨ds, hcollects, hmem⟩ := exists_collected h he
      exact hcollects.gives fun d hd ↦ hall d (hmem d hd)
    obtain ⟨blocks, hblocks⟩ : ∃ blocks, (Delayed.all size es).Gives limit blocks :=
      Delayed.exists_all_gives hgives
    exact ⟨_, Delayed.map_gives_iff.2 ⟨blocks, hblocks, rfl⟩⟩
  comes := by
    intro _ hplaced
    obtain ⟨blocks, hblocks, rfl⟩ := Delayed.map_gives_iff.1 hplaced
    have hshapes : ∀ placed ∈ blocks, placed.2.height = placed.1.length ∧ placed.2.width = width := by
      intro placed hplaced
      obtain ⟨e, he, hgives⟩ := hblocks.exists_member hplaced
      exact hshape e he placed hgives
    have hblocks := Delayed.all_gives_iff.1 hblocks
    have hassembles := Matrix.assembles_scatter (fun placed hplaced ↦ (hshapes placed hplaced).1)
      (fun placed hplaced ↦ (hshapes placed hplaced).2) (hplaces blocks hblocks)
    have honce := hassembles.once
    rw [(Matrix.shape_scatter height width blocks).1] at honce
    obtain ⟨parts, hparts, hwrites⟩ := exists_blocks h hblocks
    exact ⟨parts, hparts, hwrites.trans honce⟩
  fails hfails := by
    obtain ⟨e, he, hfails⟩ := (Delayed.failsBy_map_iff.1 hfails).exists_member
    obtain ⟨ds, hcollects, hmem⟩ := exists_collected h he
    obtain ⟨d, hd, hfails⟩ := hcollects.fails hfails
    exact ⟨d, hmem d hd, hfails⟩

end Collects

namespace Backing

variable {κ : Type} {width : Nat} {env : Env κ} {limit : Option Nat}

/-! ### Fetching from a tree -/

/-- The fetch of partitions, for rows that go to positions in order. -/
theorem fetchPlaced_parts (children : List (Backing κ)) {rows : List Nat}
    (hrange : ∀ row ∈ rows, row < (parts children).numRows) :
    ((parts children).source width env).fetchPlaced width (Partitions.numbered rows) =
      (Delayed.all children.length ((Partitions.shares numRows children
        (Partitions.numbered rows)).map fun s ↦ (s.1.source width env).fetchPlaced width s.2)).map
          fun blocks ↦ (List.range rows.length, .scatter rows.length width blocks) := by
  let p : Partitions := ⟨width, sources width env children⟩
  have hrows : p.numRows = (parts children).numRows := numRows_source (parts children)
  obtain ⟨places, hplaces⟩ := Partitions.exists_locateAll (p := p) (hrows ▸ hrange)
  have hrequests : p.requests places =
      (Partitions.shares numRows children (Partitions.numbered rows)).map
        (Prod.map (source width env) id) := by
    have hheights : (fun part : RowSource ↦ part.numRows) ∘ source width env =
        (numRows : Backing κ → Nat) := funext numRows_source
    rw [Partitions.requests_eq_shares hplaces]
    show Partitions.shares _ (sources width env children) _ = _
    rw [sources_eq, Partitions.shares_map, hheights]
  have hcount : p.count = children.length := by
    show (sources width env children).length = _
    rw [sources_eq, List.length_map]
  have hfetch : p.fetch rows = (Delayed.all children.length ((Partitions.shares numRows children
      (Partitions.numbered rows)).map fun s ↦ (s.1.source width env).fetchPlaced width s.2)).map
        (.scatter rows.length width) := by
    simp only [Partitions.fetch, hplaces, hrequests, hcount, List.map_map]
    rfl
  have hchecked (blocks : List (List Nat × Matrix)) :
      RowSource.checkBlock rows.length width (.scatter rows.length width blocks) =
        .ok (.scatter rows.length width blocks) :=
    if_pos (Matrix.shape_scatter ..)
  rw [RowSource.fetchPlaced, Partitions.map_snd_numbered, Partitions.map_fst_numbered,
    RowSource.fetchChecked]
  show ((p.fetch rows).check _).map _ = _
  rw [hfetch, Delayed.check_map hchecked, Delayed.map_map]
  rfl

/-- **The fetch of a tree collects what its leaves are asked.** -/
theorem collects_fetchPlaced (b : Backing κ) {request : List (Nat × Nat)} (hne : request ≠ [])
    (hrange : ∀ q ∈ request, q.2 < b.numRows) :
    Collects limit ((b.asks request).map (Ask.fetch width env))
      ((b.source width env).fetchPlaced width request) := by
  induction b generalizing request with
  | leaf name placement height =>
    have hrange : ∀ q ∈ request, q.2 < height := hrange
    rw [asks_leaf name placement height hne hrange]
    exact .single _
  | parts children ih =>
    -- the partitions number the rows; where they go in the end is a relabelling
    obtain ⟨f, rows, hf, hrange⟩ := Partitions.exists_moved hrange
    have hmoved : (Ask.fetch width env) ∘ Ask.moved f =
        Delayed.map (Matrix.moved f) ∘ (Ask.fetch width env : Ask κ → _) :=
      funext (Ask.fetch_moved f)
    rw [hf, asks_moved, RowSource.fetchPlaced_moved, List.map_map, hmoved, ← List.map_map]
    refine Collects.moved ?_ f
    set shares := Partitions.shares numRows children (Partitions.numbered rows) with hshares
    have hasks : ((parts children).asks (Partitions.numbered rows)).map (Ask.fetch width env) =
        (shares.map fun s ↦ (s.1.asks s.2).map (Ask.fetch width env)).flatten := by
      rw [asks_parts, List.map_flatMap, List.flatMap_def]
    rw [hasks, fetchPlaced_parts children hrange]
    refine Collects.all ?_ ?_ fun blocks hblocks ↦ ?_
    · rw [List.forall₂_map_left_iff, List.forall₂_map_right_iff, List.forall₂_same]
      intro s hs
      obtain ⟨hchild, hne, hlt⟩ := Partitions.of_mem_shares hs
      exact ih s.1 hchild hne hlt
    · intro e he placed hplaced
      obtain ⟨s, -, rfl⟩ := List.mem_map.1 he
      exact RowSource.shape_of_fetchPlaced hplaced
    · have hplaces : blocks.map (·.1) = shares.map (·.2.map (·.1)) := by
        rw [← List.forall₂_eq_eq_eq, List.forall₂_map_left_iff, List.forall₂_map_right_iff]
        exact (List.forall₂_map_left_iff.1 hblocks).flip.imp fun placed s hplaced ↦
          (RowSource.fetchPlaced_gives_iff.1 hplaced).2
      have hpositions : blocks.flatMap (·.1) = shares.flatMap (·.2.map (·.1)) := by
        rw [List.flatMap_def, List.flatMap_def, hplaces]
      rw [hpositions, ← Partitions.map_fst_numbered]
      exact Partitions.perm_shares
        (Partitions.lt_of_mem_numbered fun row hrow ↦ numRows_parts children ▸ hrange row hrow)

/-- **Only what the leaves are asked has a part in the fetch.** -/
theorem fetchPlaced_congr {env' : Env κ} (b : Backing κ) {request : List (Nat × Nat)}
    (hne : request ≠ []) (hrange : ∀ q ∈ request, q.2 < b.numRows)
    (h : ∀ a ∈ b.asks request, env a.leaf a.rows = env' a.leaf a.rows) :
    (b.source width env).fetchPlaced width request =
      (b.source width env').fetchPlaced width request := by
  induction b generalizing request with
  | leaf name placement height =>
    have hrange : ∀ q ∈ request, q.2 < height := hrange
    rw [asks_leaf name placement height hne hrange, List.forall_mem_singleton] at h
    show Ask.fetch width env ⟨name, request⟩ = Ask.fetch width env' ⟨name, request⟩
    rw [Ask.fetch, Ask.fetch, h]
  | parts children ih =>
    obtain ⟨f, rows, hf, hrange⟩ := Partitions.exists_moved hrange
    rw [hf, RowSource.fetchPlaced_moved, RowSource.fetchPlaced_moved,
      fetchPlaced_parts children hrange, fetchPlaced_parts children hrange]
    refine congrArg (fun ds ↦ ((Delayed.all children.length ds).map _).map _)
      (List.map_congr_left fun s hs ↦ ?_)
    obtain ⟨hchild, hne, hlt⟩ := Partitions.of_mem_shares hs
    refine ih s.1 hchild hne hlt fun a ha ↦ ?_
    have hmem : a ∈ (parts children).asks (Partitions.numbered rows) := by
      rw [asks_parts]
      exact List.mem_flatMap.2 ⟨s, hs, ha⟩
    have hasked := h (a.moved f) (by
      rw [hf, asks_moved]
      exact List.mem_map_of_mem hmem)
    have hsame : (a.moved f).rows = a.rows := Partitions.map_snd_moved
    rwa [hsame] at hasked

end Backing

end HopSampler
