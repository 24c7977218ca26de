import HopSampler.Proofs.Backings

/-!
# Trees of tables

Tables in memory can be laid end to end, split, and laid end to end again. However deep the tree and
wherever tables without rows stand in it, the source it makes answers as one table, the tables at
its leaves in order (`RowTree.exists_makes`): the children of a node serve pieces, so the node
serves what the pieces make up (`Partitions.Tiles.serves_toSource`).

Such a source is there at once, as memory is and as partitions are whose parts are
(`Partitions.instant`). A tree makes a source exactly if all its tables are of one width and no node
is without children (`RowTree.exists_build_iff`).
-/

-- Sums start from the numeral, also where zero comes with more structure.
attribute [local instance (high)] Zero.ofOfNat0

namespace HopSampler

/-! ### Answers that are there at once -/

namespace Delayed

variable {α β : Type} {ds : List (Delayed α)}

theorem moment_both {a : Delayed α} {b : Delayed β} (ha : a.moment = 0) (hb : b.moment = 0) :
    (both a b).moment = 0 := by
  rw [both]
  split
  · rw [ha, hb, Nat.max_self]
  · exact ha
  · exact hb
  · rw [if_pos (by omega), ha]

/-- Results that are there at once are there at once together. -/
theorem moment_all (h : ∀ d ∈ ds, d.moment = 0) (size : Nat) : (all size ds).moment = 0 := by
  rw [all]
  split
  · induction ds with
    | nil => rfl
    | cons d ds ih =>
      obtain ⟨hd, hds⟩ := List.forall_mem_cons.1 h
      exact moment_both hd (ih hds)
  · induction ds with
    | nil => rfl
    | cons d ds ih =>
      obtain ⟨hd, hds⟩ := List.forall_mem_cons.1 h
      rw [inTurn]
      split
      · exact hd
      · show max d.moment (inTurn ds).moment = 0
        rw [hd, ih hds, Nat.max_self]

end Delayed

/-- Whatever is fetched is there at once. -/
def RowSource.Instant (source : RowSource) : Prop := ∀ rows, (source.fetch rows).moment = 0

theorem RowSource.instant_held (placement : Placement) (data : Matrix) :
    (held placement data).Instant := fun _ ↦ rfl

namespace Partitions

/-- Partitions are as fast as their parts. -/
theorem instant {p : Partitions} (h : ∀ part ∈ p.parts, part.Instant) : p.toSource.Instant := by
  intro rows
  show (p.fetch rows).moment = 0
  rw [fetch]
  split
  · rfl
  · refine Delayed.moment_all (fun d hd ↦ ?_) p.count
    obtain ⟨q, hq, rfl⟩ := List.mem_map.1 hd
    obtain ⟨k, hpart, -⟩ := mem_requests_iff.1 hq
    exact h q.1 (List.mem_of_getElem? hpart) _

end Partitions

/-! ### Tables end to end -/

/-- The rows of tables of its width, one table after the other. -/
structure Matrix.Joins (data : Matrix) (tables : List Matrix) : Prop where
  widths : ∀ table ∈ tables, table.width = data.width
  rows : data.rows.toList = tables.flatMap (·.rows.toList)

theorem Matrix.Joins.singleton (data : Matrix) : data.Joins [data] :=
  ⟨by simp, by simp⟩

/-- Tables of one width can be joined. -/
theorem Matrix.exists_joins {width : Nat} {tables : List Matrix}
    (h : ∀ table ∈ tables, table.width = width) :
    ∃ data : Matrix, data.width = width ∧ data.Joins tables := by
  refine ⟨⟨width, (tables.flatMap (·.rows.toList)).toArray, fun row hrow ↦ ?_⟩, rfl, h, rfl⟩
  obtain ⟨table, htable, hrow⟩ := List.mem_flatMap.1 (List.mem_toArray.1 hrow)
  exact h table htable ▸ table.length_eq row (Array.mem_toList_iff.1 hrow)

/-- Tables that are joined of tables join what these join. -/
theorem Matrix.Joins.flatMap {α : Type} {data : Matrix} {pieces : List Matrix} {parts : List α}
    {tables : α → List Matrix} (h : data.Joins pieces)
    (hpieces : List.Forall₂ (fun piece part ↦ piece.Joins (tables part)) pieces parts) :
    data.Joins (parts.flatMap tables) := by
  obtain ⟨hwidths, hrows⟩ := h
  refine ⟨fun table htable ↦ ?_, ?_⟩
  · obtain ⟨part, hpart, htable⟩ := List.mem_flatMap.1 htable
    obtain ⟨piece, hpiece, hjoins⟩ := exists_partner_of_mem
      (R := fun part piece ↦ Matrix.Joins piece (tables part)) hpieces.flip hpart
    exact (hjoins.widths table htable).trans (hwidths piece hpiece)
  · rw [hrows, List.flatMap_assoc]
    clear hwidths hrows
    induction hpieces with
    | nil => rfl
    | cons hpiece _ ih => rw [List.flatMap_cons, List.flatMap_cons, hpiece.rows, ih]

/-- A source that answers as the rows of a table in memory do. -/
structure RowSource.Answers (source : RowSource) (data : Matrix) : Prop where
  numRows : source.numRows = data.height
  width : source.width = data.width
  fetch : ∀ rows, source.fetch rows = .now (gather data rows)
  /-- Rows in range come in the order in which they were asked for, repetitions and all. -/
  inside : ∀ rows, (∀ row ∈ rows, row < data.height) →
    ∃ block, source.fetch rows = .now (.ok block) ∧ data.Selects rows block
  /-- The first row out of range is reported. -/
  outside : ∀ rows row, rows.find? (data.height ≤ ·) = some row →
    source.fetch rows = .now (.error (.input (.rowOutsideBacking row data.height)))

theorem RowSource.Serves.answers {source : RowSource} {data : Matrix} (h : source.Serves data)
    (hinstant : source.Instant) : source.Answers data := by
  have hfetch : ∀ rows, source.fetch rows = .now (gather data rows) := by
    intro rows
    rw [← h.fetch rows, Delayed.now, ← hinstant rows]
  refine ⟨h.numRows, h.width, hfetch, fun rows hrange ↦ ?_, fun rows row hfind ↦ ?_⟩
  · have hselects := Matrix.selects_gather hrange
    exact ⟨_, by rw [hfetch, gather_eq_ok_iff.2 hselects], hselects⟩
  · rw [hfetch, gather, hfind]

/-! ### Trees -/

/-- A source made of tables in memory. -/
inductive RowTree where
  | device (id : UInt64) (data : Matrix)
  | zeroCopy (data : Matrix)
  | split (data : Matrix) (count : UInt64)
  | parts (children : List RowTree)

namespace RowTree

/-- What holds of the leaves and passes from the children to their parent holds of every tree. -/
@[elab_as_elim, induction_eliminator]
theorem induction {motive : RowTree → Prop}
    (device : ∀ id data, motive (.device id data)) (zeroCopy : ∀ data, motive (.zeroCopy data))
    (split : ∀ data count, motive (.split data count))
    (parts : ∀ children, (∀ child ∈ children, motive child) → motive (.parts children))
    (tree : RowTree) : motive tree :=
  @RowTree.rec motive (fun children ↦ ∀ child ∈ children, motive child) device zeroCopy split parts
    (fun _ hmem ↦ absurd hmem List.not_mem_nil)
    (fun _ _ hchild hrest ↦ List.forall_mem_cons.2 ⟨hchild, hrest⟩) tree

mutual

/-- The source that a tree is. -/
def build : RowTree → Except Error RowSource
  | .device id data => .ok (.device id data)
  | .zeroCopy data => .ok (.zeroCopy data)
  | .split data count => do
    let p ← Partitions.split data count
    .ok p.toSource
  | .parts children => do
    let p ← Partitions.ofParts (← buildAll children)
    .ok p.toSource

/-- The sources that trees are. -/
def buildAll : List RowTree → Except Error (List RowSource)
  | [] => .ok []
  | child :: rest => do
    let source ← build child
    let sources ← buildAll rest
    .ok (source :: sources)

end

mutual

/-- The tables in order. -/
def tables : RowTree → List Matrix
  | .device _ data => [data]
  | .zeroCopy data => [data]
  | .split data _ => [data]
  | .parts children => tablesOf children

/-- The tables of trees end to end. -/
def tablesOf : List RowTree → List Matrix
  | [] => []
  | child :: rest => tables child ++ tablesOf rest

end

/-- A tree of tables of one width, in which tables are split over one partition at least and every
node has a child. -/
inductive Uniform (width : Nat) : RowTree → Prop
  | device {id : UInt64} {data : Matrix} (h : data.width = width) : Uniform width (.device id data)
  | zeroCopy {data : Matrix} (h : data.width = width) : Uniform width (.zeroCopy data)
  | split {data : Matrix} {count : UInt64} (h : data.width = width) (hcount : count ≠ 0) :
    Uniform width (.split data count)
  | parts {children : List RowTree} (hne : children ≠ [])
    (h : ∀ child ∈ children, Uniform width child) : Uniform width (.parts children)

theorem tablesOf_eq (children : List RowTree) : tablesOf children = children.flatMap tables := by
  induction children with
  | nil => rfl
  | cons child rest ih => rw [tablesOf, ih, List.flatMap_cons]

theorem buildAll_eq_ok_iff {children : List RowTree} {sources : List RowSource} :
    buildAll children = .ok sources ↔
      List.Forall₂ (fun child source ↦ child.build = .ok source) children sources := by
  induction children generalizing sources with
  | nil =>
    rw [buildAll, List.forall₂_nil_left_iff, Except.ok.injEq, eq_comm]
  | cons child rest ih =>
    simp only [buildAll, bind_eq_ok_iff, List.forall₂_cons_left_iff, Except.ok.injEq, ih]
    exact ⟨fun ⟨source, hbuild, sources, hrest, heq⟩ ↦ ⟨source, sources, hbuild, hrest, heq.symm⟩,
      fun ⟨source, sources, hbuild, hrest, heq⟩ ↦ ⟨source, hbuild, sources, hrest, heq.symm⟩⟩

/-! ### A tree answers as one table -/

theorem exists_buildAll {children : List RowTree} {good : RowSource → Prop}
    (h : ∀ child ∈ children, ∃ source, child.build = .ok source ∧ good source) :
    ∃ sources, buildAll children = .ok sources ∧ ∀ source ∈ sources, good source := by
  induction children with
  | nil => exact ⟨[], rfl, by simp⟩
  | cons child rest ih =>
    obtain ⟨⟨source, hbuild, hgood⟩, hrest⟩ := List.forall_mem_cons.1 h
    obtain ⟨sources, hsources, hall⟩ := ih hrest
    exact ⟨source :: sources, by rw [buildAll, hbuild, hsources]; rfl,
      List.forall_mem_cons.2 ⟨hgood, hall⟩⟩

/-- A tree of one width makes a source, of that width. -/
theorem Uniform.exists_build {width : Nat} {tree : RowTree} (h : tree.Uniform width) :
    ∃ source, tree.build = .ok source ∧ source.width = width := by
  induction h with
  | device h => exact ⟨_, rfl, h⟩
  | zeroCopy h => exact ⟨_, rfl, h⟩
  | split h hcount =>
    exact ⟨_, bind_eq_ok_iff.2 ⟨_, Partitions.split_eq_ok_iff.2 ⟨hcount, rfl⟩, rfl⟩, h⟩
  | @parts children hne _ ih =>
    obtain ⟨sources, hsources, hwidths⟩ := exists_buildAll ih
    have hlength := (buildAll_eq_ok_iff.1 hsources).length_eq
    have hparts : Partitions.ofParts sources = .ok ⟨width, sources⟩ :=
      Partitions.ofParts_eq_ok_iff.2 ⟨fun hnil ↦ hne (by simpa [hnil] using hlength), rfl, hwidths⟩
    exact ⟨_, bind_eq_ok_iff.2 ⟨sources, hsources, bind_eq_ok_iff.2 ⟨_, hparts, rfl⟩⟩, rfl⟩

/-- A tree makes a source that serves the table which its own tables make up. -/
structure Makes (tree : RowTree) (source : RowSource) (data : Matrix) : Prop where
  serves : source.Serves data
  instant : source.Instant
  joins : data.Joins tree.tables
  uniform : tree.Uniform data.width

/-- What the children of a node make are pieces. -/
theorem exists_pieces {children : List RowTree} {sources : List RowSource}
    (hbuild : List.Forall₂ (fun child source ↦ child.build = .ok source) children sources)
    (ih : ∀ child ∈ children, ∀ source, child.build = .ok source →
      ∃ data, child.Makes source data) :
    ∃ pieces, List.Forall₂ RowSource.Serves sources pieces ∧
      List.Forall₂ (fun piece child ↦ piece.Joins child.tables ∧ child.Uniform piece.width)
        pieces children ∧ ∀ source ∈ sources, source.Instant := by
  induction hbuild with
  | nil => exact ⟨[], .nil, .nil, by simp⟩
  | cons hchild _ hrest =>
    obtain ⟨piece, hmakes⟩ := ih _ List.mem_cons_self _ hchild
    obtain ⟨pieces, hserves, hpieces, hinstant⟩ :=
      hrest fun child hmem ↦ ih child (List.mem_cons_of_mem _ hmem)
    exact ⟨piece :: pieces, .cons hmakes.serves hserves,
      .cons ⟨hmakes.joins, hmakes.uniform⟩ hpieces,
      List.forall_mem_cons.2 ⟨hmakes.instant, hinstant⟩⟩

/-- Whatever a tree makes serves the table which its own tables make up. -/
theorem exists_makes {tree : RowTree} {source : RowSource} (h : tree.build = .ok source) :
    ∃ data, tree.Makes source data := by
  induction tree generalizing source with
  | device id data =>
    cases h
    exact ⟨data, RowSource.serves_held _ data, RowSource.instant_held _ data, .singleton data,
      .device rfl⟩
  | zeroCopy data =>
    cases h
    exact ⟨data, RowSource.serves_held _ data, RowSource.instant_held _ data, .singleton data,
      .zeroCopy rfl⟩
  | split data count =>
    obtain ⟨p, hsplit, hp⟩ := bind_eq_ok_iff.1 h
    cases hp
    obtain ⟨pieces, htiles⟩ := Partitions.exists_tiles_of_split hsplit
    obtain ⟨hcount, rfl⟩ := Partitions.split_eq_ok_iff.1 hsplit
    refine ⟨data, htiles.serves_toSource, Partitions.instant ?_, .singleton data,
      .split rfl hcount⟩
    exact List.forall_mem_map.2 fun k _ ↦ RowSource.instant_held _ _
  | parts children ih =>
    obtain ⟨sources, hsources, h⟩ := bind_eq_ok_iff.1 h
    obtain ⟨p, hparts, hp⟩ := bind_eq_ok_iff.1 h
    cases hp
    have hbuild := buildAll_eq_ok_iff.1 hsources
    obtain ⟨hne, rfl, hsame⟩ := Partitions.ofParts_eq_ok_iff.1 hparts
    obtain ⟨pieces, hserves, hpieces, hinstant⟩ :=
      exists_pieces hbuild fun child hchild source hsource ↦ ih child hchild hsource
    have hwidths : ∀ piece ∈ pieces, piece.width = p.width := fun piece hpiece ↦ by
      obtain ⟨source, hsource, hserve⟩ := exists_partner_of_mem
        (R := fun piece source ↦ RowSource.Serves source piece) hserves.flip hpiece
      exact hserve.width.symm.trans (hsame source hsource)
    obtain ⟨data, hwidth, hjoins⟩ := Matrix.exists_joins hwidths
    have htiles : p.Tiles data pieces := ⟨hwidth.symm, hjoins.widths, hjoins.rows.symm, hserves⟩
    refine ⟨data, htiles.serves_toSource, Partitions.instant hinstant, ?_, .parts ?_ ?_⟩
    · rw [tables, tablesOf_eq]
      exact hjoins.flatMap (hpieces.imp fun piece child h ↦ h.1)
    · rintro rfl
      exact hne (List.forall₂_nil_left_iff.1 hbuild)
    · intro child hchild
      obtain ⟨piece, hpiece, -, huniform⟩ := exists_partner_of_mem
        (R := fun (child : RowTree) (piece : Matrix) ↦
          piece.Joins child.tables ∧ child.Uniform piece.width) hpieces.flip hchild
      rwa [hwidth, ← hwidths piece hpiece]

/-- **A tree makes a source exactly if it is of one width.** -/
theorem exists_build_iff {tree : RowTree} :
    (∃ source, tree.build = .ok source) ↔ ∃ width, tree.Uniform width := by
  constructor
  · rintro ⟨source, h⟩
    obtain ⟨data, hmakes⟩ := exists_makes h
    exact ⟨data.width, hmakes.uniform⟩
  · rintro ⟨width, h⟩
    obtain ⟨source, hbuild, -⟩ := h.exists_build
    exact ⟨source, hbuild⟩

/-- A tree of tables is as good as one table. -/
structure Flat (tree : RowTree) : Prop where
  /-- It makes a source exactly if it is of one width. -/
  builds : (∃ source, tree.build = .ok source) ↔ ∃ width, tree.Uniform width
  /-- The source answers as its tables do when they are laid end to end. -/
  answers : ∀ source, tree.build = .ok source →
    ∃ data : Matrix, data.Joins tree.tables ∧ source.Answers data

/-- **Every tree of tables answers as one table**, and a table is split over just as many partitions
as are asked for. -/
theorem flat_and_split : (∀ tree : RowTree, tree.Flat) ∧
    ∀ (data : Matrix) (count : UInt64),
      (∃ p, Partitions.split data count = .ok p ∧ p.count = count.toNat) ↔ count ≠ 0 := by
  refine ⟨fun tree ↦ ⟨exists_build_iff, fun source hbuild ↦ ?_⟩, fun data count ↦ ?_⟩
  · obtain ⟨data, hmakes⟩ := exists_makes hbuild
    exact ⟨data, hmakes.joins, hmakes.serves.answers hmakes.instant⟩
  · constructor
    · rintro ⟨p, hsplit, -⟩
      exact (Partitions.split_eq_ok_iff.1 hsplit).1
    · intro hcount
      refine ⟨_, Partitions.split_eq_ok_iff.2 ⟨hcount, rfl⟩, ?_⟩
      rw [Partitions.count, List.length_map, List.length_range]

end RowTree

end HopSampler
