import HopSampler.Proofs.Datasets
import HopSampler.Proofs.Distance
import HopSampler.Proofs.Names

/-!
# What the statistics of a graph tell

Statistics list counts by the text of a type. A node type is its name, so there is one entry for
each node type. The text of an edge type is made of three names, and different edge types may have
the same text: of those the last in order is listed and the others are *hidden* (`Graph.Hidden`).

**Statistics add up exactly if no edge type is hidden** (`Graph.statsAddUp_iff`). They are there
exactly if a word holds the number of nodes. Where the names of sources and relations do not contain
the separator, texts can be read back (`EdgeType.text_inj`), so nothing is hidden.
-/

-- Sums start from the numeral, also where zero comes with more structure.
attribute [local instance (high)] Zero.ofOfNat0

namespace HopSampler

/-! ### The greatest degree -/

namespace Topology

private theorem foldl_max_eq_or_exists (rows : List (Array Arc)) (m : Nat) :
    rows.foldl (fun m row ↦ max m row.size) m = m ∨
      ∃ row ∈ rows, row.size = rows.foldl (fun m row ↦ max m row.size) m := by
  induction rows generalizing m with
  | nil => exact .inl rfl
  | cons first rows ih =>
    rw [List.foldl_cons]
    rcases ih (max m first.size) with hstart | ⟨row, hrow, hsize⟩
    · rcases Nat.le_total m first.size with hle | hle
      · exact .inr ⟨first, List.mem_cons_self, by omega⟩
      · exact .inl (by omega)
    · exact .inr ⟨row, List.mem_cons_of_mem first hrow, hsize⟩

variable {t : Topology}

theorem size_le_maxDegree {node : Id} {row : Array Arc} (h : t.neighbors? node = some row) :
    row.size ≤ t.maxDegree := by
  have hle := length_arcsOf_le t node
  rwa [arcsOf_eq h, Array.length_toList] at hle

/-- Where there are rows, one has the greatest degree. -/
theorem exists_row_of_maxDegree (h : t.numNodes ≠ 0) :
    ∃ (i : Nat) (row : Array Arc), t.rows[i]? = some row ∧ row.size = t.maxDegree := by
  obtain ⟨first, hfirst⟩ : ∃ row, t.rows[0]? = some row :=
    ⟨_, Array.getElem?_eq_getElem (Nat.pos_of_ne_zero h)⟩
  have hdegree : t.maxDegree = t.rows.toList.foldl (fun m row ↦ max m row.size) 0 := by
    rw [maxDegree, ← Array.foldl_toList]
  rcases foldl_max_eq_or_exists t.rows.toList 0 with hzero | ⟨row, hrow, hsize⟩
  · have hrow : t.neighbors? 0 = some first := hfirst
    have hle := size_le_maxDegree hrow
    exact ⟨0, first, hfirst, by omega⟩
  · obtain ⟨i, hi⟩ := Array.mem_iff_getElem?.1 (Array.mem_toList_iff.1 hrow)
    exact ⟨i, row, hi, by rw [hsize, hdegree]⟩

end Topology

/-! ### Texts -/

/-- A name in which the separator of texts does not occur. -/
def NameClear (name : String) : Prop := ¬[',', ' '] <:+: name.toList

/-- The separator ends in a blank, so it does not begin at the end of a name. -/
theorem NameClear.clearOf {name : String} (h : NameClear name) :
    ClearOf [',', ' '] name.toList := by
  rw [ClearOf, List.dropLast_cons_of_ne_nil (List.cons_ne_nil _ _), List.dropLast_singleton,
    List.infix_concat_iff, not_or]
  refine ⟨fun hsuffix ↦ ?_, h⟩
  obtain ⟨front, hfront⟩ := hsuffix
  have hlast : ' ' = ',' := by simpa using congrArg List.getLast? hfront
  exact absurd hlast (by decide)

namespace EdgeType

theorem toList_text (e : EdgeType) : e.text.toList =
    '(' :: (e.source.name.toList ++ ',' :: ' ' ::
      (e.relation.toList ++ ',' :: ' ' :: (e.target.name.toList ++ [')']))) := by
  simp [text]

/-- Texts can be read back, where sources and relations do not contain the separator. -/
theorem text_inj {e e' : EdgeType} (hsource : NameClear e.source.name)
    (hrelation : NameClear e.relation) (hsource' : NameClear e'.source.name)
    (hrelation' : NameClear e'.relation) (h : e.text = e'.text) : e = e' := by
  have hlist := congrArg String.toList h
  rw [toList_text, toList_text] at hlist
  obtain ⟨hsources, hrest⟩ :=
    eq_of_append_separator hsource.clearOf hsource'.clearOf (List.cons.inj hlist).2
  obtain ⟨hrelations, hrest⟩ :=
    eq_of_append_separator hrelation.clearOf hrelation'.clearOf hrest
  have htargets := List.append_cancel_right hrest
  refine Tag.eq_of_path ?_
  show [e.source.name, e.relation, e.target.name] = [e'.source.name, e'.relation, e'.target.name]
  rw [String.toList_inj.1 hsources, String.toList_inj.1 hrelations, String.toList_inj.1 htargets]

end EdgeType

namespace Graph

variable {g : Graph} {e : EdgeType} {t : Topology}

/-- A later edge type of the graph has the same text. -/
def Hidden (g : Graph) (e : EdgeType) : Prop :=
  ∃ later ∈ g.edgeTypes, Tag.Before e later ∧ later.text = e.text

instance (g : Graph) (e : EdgeType) : Decidable (g.Hidden e) :=
  inferInstanceAs (Decidable (∃ later ∈ g.edgeTypes, Tag.Before e later ∧ later.text = e.text))

/-- The edge types that are listed, in order. -/
def shown (g : Graph) : List EdgeType := g.edgeTypes.filter fun e ↦ ¬g.Hidden e

theorem mem_shown_iff : e ∈ g.shown ↔ e ∈ g.edgeTypes ∧ ¬g.Hidden e :=
  SortedMap.mem_shown_iff

theorem mem_edgeTypes_iff : e ∈ g.edgeTypes ↔ ∃ t, g.topology e = .ok t := by
  simp only [edgeTypes, SortedMap.mem_keys_iff, SortedMap.get?_eq_some_iff, topology_eq_ok_iff]

/-! ### What is listed by text -/

/-- A count of every edge type, listed by text. -/
def byText (g : Graph) (count : Topology → Nat) : SortedMap String Nat :=
  .ofList (g.topologies.entries.map fun (e, t) ↦ (e.text, count t))

/-- The entry of an edge type that is listed is its own. -/
theorem get?_byText (count : Topology → Nat) (htop : g.topology e = .ok t) (h : ¬g.Hidden e) :
    (g.byText count).get? e.text = some (count t) :=
  SortedMap.get?_named (SortedMap.get?_eq_some_iff.2 (topology_eq_ok_iff.1 htop)) h

/-- The texts are those of the edge types that are listed, each once. -/
theorem keys_byText_perm (g : Graph) (count : Topology → Nat) :
    (g.byText count).keys.Perm (g.shown.map (·.text)) :=
  g.topologies.keys_named_perm EdgeType.text count

/-- **There is an entry for each edge type exactly if none is hidden.** -/
theorem size_byText_iff (count : Topology → Nat) :
    (g.byText count).size = g.edgeTypes.length ↔ ∀ e ∈ g.edgeTypes, ¬g.Hidden e :=
  SortedMap.size_named_iff

/-- The count of an edge type, none for one that is not in the graph. -/
def countOf (g : Graph) (count : Topology → Nat) (e : EdgeType) : Nat :=
  ((g.topologies.get? e).map count).getD 0

theorem countOf_eq {count : Topology → Nat} (htop : g.topology e = .ok t) :
    g.countOf count e = count t := by
  rw [countOf, SortedMap.get?_eq_some_iff.2 (topology_eq_ok_iff.1 htop), Option.map_some,
    Option.getD_some]

/-- What is listed adds up to all but what is hidden. -/
theorem sum_byText (g : Graph) (count : Topology → Nat) :
    (g.byText count).values.sum +
        ((g.edgeTypes.filter fun e ↦ g.Hidden e).map (g.countOf count)).sum =
      (g.topologies.values.map count).sum := by
  have hlisted : (g.byText count).values.sum = (g.shown.map (g.countOf count)).sum := by
    have hsum := SortedMap.sum_values (g.byText count) id
    rw [List.map_id] at hsum
    rw [hsum, ((g.keys_byText_perm count).map _).sum_nat, List.map_map]
    refine congrArg List.sum (List.map_congr_left fun e he ↦ ?_)
    obtain ⟨hmem, hshown⟩ := mem_shown_iff.1 he
    obtain ⟨t, htop⟩ := mem_edgeTypes_iff.1 hmem
    rw [Function.comp_apply, get?_byText count htop hshown, countOf_eq htop, Option.map_some,
      Option.getD_some, id]
  have hparts := ((List.filter_append_perm (fun e ↦ decide (g.Hidden e)) g.edgeTypes).map
    (g.countOf count)).sum_nat
  rw [List.map_append, List.sum_append] at hparts
  rw [hlisted, SortedMap.sum_values g.topologies count, Nat.add_comm]
  refine Eq.trans ?_ hparts
  simp only [shown, decide_not]

/-! ### Node types -/

/-- The node counts, listed by text. -/
def nodesByText (g : Graph) : SortedMap String UInt64 :=
  .ofList (g.nodeCounts.entries.map fun (t, n) ↦ (t.text, n))

/-- Nodes are listed by type, as a type is its name. -/
theorem entries_nodesByText (g : Graph) :
    g.nodesByText.entries = g.nodeCounts.entries.map fun (t, n) ↦ (t.text, n) :=
  SortedMap.entries_ofList (List.pairwise_map.2 g.nodeCounts.ascending)

theorem get?_nodesByText {t : NodeType} {count : UInt64} (h : g.numNodes t = .ok count) :
    g.nodesByText.get? t.text = some count := by
  rw [SortedMap.get?_eq_some_iff, entries_nodesByText]
  have hmem := SortedMap.get?_eq_some_iff.1 (numNodes_eq_ok_iff.1 h)
  exact List.mem_map.2 ⟨(t, count), hmem, rfl⟩

theorem values_nodesByText (g : Graph) : g.nodesByText.values = g.nodeCounts.values := by
  rw [SortedMap.values, entries_nodesByText, List.map_map]
  rfl

theorem size_nodesByText (g : Graph) : g.nodesByText.size = g.nodeTypes.length := by
  rw [SortedMap.size, entries_nodesByText, List.length_map, nodeTypes, SortedMap.keys,
    List.length_map]

/-! ### Taking statistics -/

/-- The number of nodes fits a word. -/
def NodesFit (g : Graph) : Prop := (g.nodeCounts.values.map (·.toNat)).sum < UInt64.size

instance (g : Graph) : Decidable g.NodesFit :=
  inferInstanceAs (Decidable ((g.nodeCounts.values.map (·.toNat)).sum < UInt64.size))

variable {s : Stats}

/-- What is listed in statistics that were taken. -/
theorem stats_eq_ok_iff : g.stats = .ok s ↔
    s.totalNodes.toNat = (g.nodeCounts.values.map (·.toNat)).sum ∧
      s = ⟨g.nodeCounts.size, g.topologies.size, s.totalNodes, g.totalEdges, g.nodesByText,
        g.byText (·.numEdges), g.byText (·.maxDegree)⟩ := by
  rw [stats, bind_eq_ok_iff]
  constructor
  · rintro ⟨total, htotal, hs⟩
    cases hs
    exact ⟨checked_eq_ok_iff.1 htotal, rfl⟩
  · rintro ⟨htotal, hs⟩
    exact ⟨s.totalNodes, checked_eq_ok_iff.2 htotal, congrArg Except.ok hs.symm⟩

theorem exists_stats_iff : (∃ s, g.stats = .ok s) ↔ g.NodesFit := by
  constructor
  · rintro ⟨s, hs⟩
    rw [NodesFit, ← (stats_eq_ok_iff.1 hs).1]
    exact s.totalNodes.toNat_lt
  · intro hfit
    exact ⟨_, bind_eq_ok_iff.2 ⟨_, checked_eq_ok_iff.2 (toNat_toUInt64 hfit), rfl⟩⟩

theorem stats_eq_overflow (h : ¬g.NodesFit) : g.stats = .error .overflow :=
  bind_eq_error_iff.2 (.inl (checked_eq_error_iff.2 ⟨Nat.le_of_not_lt h, rfl⟩))

/-! ### Adding up -/

/-- The rows of every topology are numbered by IDs. -/
def RowsAddressed (g : Graph) : Prop := ∀ a ∈ g.topologies.entries, a.2.numNodes ≤ UInt64.size

instance (g : Graph) : Decidable g.RowsAddressed :=
  inferInstanceAs (Decidable (∀ a ∈ g.topologies.entries, a.2.numNodes ≤ UInt64.size))

/-- The greatest degree of a node under an edge type, zero where there is no node. -/
structure GreatestDegree (g : Graph) (e : EdgeType) (greatest : Nat) : Prop where
  le : ∀ node degree, g.degree e node = .ok degree → degree ≤ greatest
  attained : (∃ node, g.degree e node = .ok greatest) ∨
    greatest = 0 ∧ ∀ node degree, g.degree e node ≠ .ok degree

theorem degree_eq_ok_iff {node : Id} {degree : Nat} (htop : g.topology e = .ok t) :
    g.degree e node = .ok degree ↔ ∃ row, t.neighbors? node = some row ∧ row.size = degree := by
  simp only [Graph.degree, map_eq_ok_iff, neighbors_eq_ok_iff, htop, Except.ok.injEq,
    exists_eq_left']

theorem greatestDegree (hg : g.RowsAddressed) (htop : g.topology e = .ok t) :
    g.GreatestDegree e t.maxDegree where
  le node degree hdegree := by
    obtain ⟨row, hrow, rfl⟩ := (degree_eq_ok_iff htop).1 hdegree
    exact Topology.size_le_maxDegree hrow
  attained := by
    by_cases hnone : t.numNodes = 0
    · refine .inr ⟨?_, fun node degree hdegree ↦ ?_⟩
      · have hrows : t.rows = #[] := Array.eq_empty_of_size_eq_zero hnone
        rw [Topology.maxDegree, hrows, Array.foldl_empty]
      · obtain ⟨row, hrow, -⟩ := (degree_eq_ok_iff htop).1 hdegree
        have hlt : node.toNat < t.numNodes := (Array.getElem?_eq_some_iff.1 hrow).1
        omega
    · obtain ⟨i, row, hrow, hsize⟩ := Topology.exists_row_of_maxDegree hnone
      have hlt : i < UInt64.size :=
        Nat.lt_of_lt_of_le (Array.getElem?_eq_some_iff.1 hrow).1 (hg _ (topology_eq_ok_iff.1 htop))
      refine .inl ⟨i.toUInt64, (degree_eq_ok_iff htop).2 ⟨row, ?_, hsize⟩⟩
      rw [Topology.neighbors?, toNat_toUInt64 hlt, hrow]

/-- Statistics have an entry for each type, with its own count, and the entries add up. -/
structure StatsAddUp (g : Graph) (s : Stats) : Prop where
  nodeEntries : s.nodesByType.size = g.nodeTypes.length
  edgeEntries : s.edgesByType.size = g.edgeTypes.length
  degreeEntries : s.maxDegreeByType.size = g.edgeTypes.length
  sumNodes : (s.nodesByType.values.map (·.toNat)).sum = s.totalNodes.toNat
  sumEdges : s.edgesByType.values.sum = s.totalEdges
  numNodes : ∀ t n, g.numNodes t = .ok n → s.nodesByType.get? t.text = some n
  numEdges : ∀ e n, g.numEdges e = .ok n → s.edgesByType.get? e.text = some n
  maxDegree : ∀ e ∈ g.edgeTypes, ∃ greatest,
    s.maxDegreeByType.get? e.text = some greatest ∧ g.GreatestDegree e greatest

theorem get?_numEdges {n : Nat} (hn : g.numEdges e = .ok n) (h : ¬g.Hidden e) :
    (g.byText (·.numEdges)).get? e.text = some n := by
  obtain ⟨t, htop, rfl⟩ := map_eq_ok_iff.1 hn
  exact get?_byText _ htop h

theorem exists_greatestDegree (hg : g.RowsAddressed) (he : e ∈ g.edgeTypes) (h : ¬g.Hidden e) :
    ∃ greatest, (g.byText (·.maxDegree)).get? e.text = some greatest ∧
      g.GreatestDegree e greatest := by
  obtain ⟨t, htop⟩ := mem_edgeTypes_iff.1 he
  exact ⟨t.maxDegree, get?_byText _ htop h, greatestDegree hg htop⟩

/-- Edges are missing exactly if a hidden edge type has some. -/
theorem sum_numEdges_iff : (g.byText (·.numEdges)).values.sum = g.totalEdges ↔
    ∀ e ∈ g.edgeTypes, g.Hidden e → g.numEdges e = .ok 0 := by
  have hsum : (g.byText (·.numEdges)).values.sum + _ = g.totalEdges := g.sum_byText (·.numEdges)
  rw [← hsum, Nat.left_eq_add, List.sum_eq_zero_iff_forall_eq_nat, List.forall_mem_map]
  simp only [List.mem_filter, decide_eq_true_eq, and_imp]
  refine forall₃_congr fun e he _ ↦ ?_
  obtain ⟨t, htop⟩ := mem_edgeTypes_iff.1 he
  rw [countOf_eq htop, Graph.numEdges, htop]
  show t.numEdges = 0 ↔ (.ok t.numEdges : Except Error Nat) = .ok 0
  rw [Except.ok.injEq]

/-- Nodes always add up. -/
theorem sum_nodesByType (hs : g.stats = .ok s) :
    (s.nodesByType.values.map (·.toNat)).sum = s.totalNodes.toNat := by
  obtain ⟨htotal, hs⟩ := stats_eq_ok_iff.1 hs
  rw [htotal, hs, values_nodesByText]

/-- **Statistics add up exactly if no edge type is hidden.** -/
theorem statsAddUp_iff (hg : g.RowsAddressed) (hs : g.stats = .ok s) :
    g.StatsAddUp s ↔ ∀ e ∈ g.edgeTypes, ¬g.Hidden e := by
  have hsum := sum_nodesByType hs
  obtain ⟨-, hs⟩ := stats_eq_ok_iff.1 hs
  constructor
  · intro h
    have hentries := h.edgeEntries
    rw [hs] at hentries
    exact (size_byText_iff _).1 hentries
  · intro h
    rw [hs] at hsum ⊢
    exact {
      nodeEntries := g.size_nodesByText
      edgeEntries := (size_byText_iff _).2 h
      degreeEntries := (size_byText_iff _).2 h
      sumNodes := hsum
      sumEdges := sum_numEdges_iff.2 fun e he hhidden ↦ absurd hhidden (h e he)
      numNodes := fun t n hn ↦ get?_nodesByText hn
      numEdges := fun e n hn ↦ by
        obtain ⟨t, htop, -⟩ := map_eq_ok_iff.1 hn
        exact get?_numEdges hn (h e (mem_edgeTypes_iff.2 ⟨t, htop⟩))
      maxDegree := fun e he ↦ exists_greatestDegree hg he (h e he) }

/-- Where no source and no relation contains the separator, nothing is hidden. -/
theorem not_hidden_of_nameClear
    (h : ∀ e ∈ g.edgeTypes, NameClear e.source.name ∧ NameClear e.relation) :
    ∀ e ∈ g.edgeTypes, ¬g.Hidden e := by
  rintro e he ⟨later, hlater, hbefore, htext⟩
  obtain ⟨hsource, hrelation⟩ := h e he
  obtain ⟨hsource', hrelation'⟩ := h later hlater
  exact hbefore.ne (EdgeType.text_inj hsource hrelation hsource' hrelation' htext.symm)

/-- What statistics list, whatever the names are. -/
structure StatsList (g : Graph) (s : Stats) : Prop where
  nodeEntries : s.nodesByType.size = g.nodeTypes.length
  numNodes : ∀ t n, g.numNodes t = .ok n → s.nodesByType.get? t.text = some n
  sumNodes : (s.nodesByType.values.map (·.toNat)).sum = s.totalNodes.toNat
  /-- The texts are those of the edge types. -/
  texts : ∀ text, (text ∈ s.edgesByType.keys ↔ ∃ e ∈ g.edgeTypes, e.text = text) ∧
    (text ∈ s.maxDegreeByType.keys ↔ ∃ e ∈ g.edgeTypes, e.text = text)
  /-- Under a text stand the counts of the last edge type with it. -/
  numEdges : ∀ e n, g.numEdges e = .ok n → ¬g.Hidden e → s.edgesByType.get? e.text = some n
  maxDegree : ∀ e ∈ g.edgeTypes, ¬g.Hidden e → ∃ greatest,
    s.maxDegreeByType.get? e.text = some greatest ∧ g.GreatestDegree e greatest
  /-- The edges of the others are missing. -/
  sumEdges_iff : s.edgesByType.values.sum = s.totalEdges ↔
    ∀ e ∈ g.edgeTypes, g.Hidden e → g.numEdges e = .ok 0
  addUp_iff : g.StatsAddUp s ↔ ∀ e ∈ g.edgeTypes, ¬g.Hidden e
  /-- Nothing is hidden where sources and relations do not contain the separator. -/
  addUp_of_clear :
    (∀ e ∈ g.edgeTypes, NameClear e.source.name ∧ NameClear e.relation) → g.StatsAddUp s

/-- What taking the statistics of a graph leads to. -/
structure StatsTell (g : Graph) (result : Except Error Stats) : Prop where
  taken : (∃ s, result = .ok s) ↔ g.NodesFit
  overflow : ¬g.NodesFit → result = .error .overflow
  listed : ∀ s, result = .ok s → g.StatsList s

theorem mem_keys_byText_iff {count : Topology → Nat} {text : String} :
    text ∈ (g.byText count).keys ↔ ∃ e ∈ g.edgeTypes, e.text = text :=
  SortedMap.mem_keys_named_iff

/-- **Statistics list every node type, and the last edge type of every text**; they are there
exactly if a word holds the number of nodes, and add up exactly if what is listed is all edge
types. -/
theorem stats_tell (hg : g.RowsAddressed) : g.StatsTell g.stats where
  taken := exists_stats_iff
  overflow := stats_eq_overflow
  listed s htaken := by
    have hsum := sum_nodesByType htaken
    have hiff := statsAddUp_iff hg htaken
    obtain ⟨-, hs⟩ := stats_eq_ok_iff.1 htaken
    rw [hs] at hsum hiff ⊢
    exact {
      nodeEntries := g.size_nodesByText
      numNodes := fun _ _ ↦ get?_nodesByText
      sumNodes := hsum
      texts := fun _ ↦ ⟨mem_keys_byText_iff, mem_keys_byText_iff⟩
      numEdges := fun _ _ ↦ get?_numEdges
      maxDegree := fun _ ↦ exists_greatestDegree hg
      sumEdges_iff := sum_numEdges_iff
      addUp_iff := hiff
      addUp_of_clear := fun h ↦ hiff.2 (not_hidden_of_nameClear h) }

/-- Two edge types that are shown alike. -/
def alike : Graph where
  nodeCounts := ⟨[(⟨"a"⟩, 1), (⟨"a, b"⟩, 1), (⟨"d"⟩, 2)], by decide⟩
  topologies := ⟨[(⟨⟨"a"⟩, "b, c", ⟨"d"⟩⟩, ⟨#[#[⟨0, 0⟩, ⟨1, 1⟩]], .zeroCopy⟩),
    (⟨⟨"a, b"⟩, "c", ⟨"d"⟩⟩, ⟨#[#[⟨1, 0⟩]], .zeroCopy⟩)], by decide⟩

theorem stats_tell_alike : alike.RowsAddressed ∧ alike.StatsTell alike.stats :=
  ⟨by decide, stats_tell (by decide)⟩

/-- It can be built, and the edges of one of the two types are missing in its statistics. -/
theorem exists_stats_short : ∃ (b : Blueprint) (s : Stats), b.build = .ok alike ∧
    alike.stats = .ok s ∧ s.edgesByType.values.sum < s.totalEdges ∧ ¬alike.StatsAddUp s := by
  let b := (Blueprint.empty.attach ⟨⟨"a"⟩, "b, c", ⟨"d"⟩⟩ ⟨#[#[⟨0, 0⟩, ⟨1, 1⟩]], .zeroCopy⟩).attach
    ⟨⟨"a, b"⟩, "c", ⟨"d"⟩⟩ ⟨#[#[⟨1, 0⟩]], .zeroCopy⟩
  have hless : (alike.byText (·.numEdges)).values.sum < alike.totalEdges := by decide
  obtain ⟨s, hs⟩ : ∃ s, alike.stats = .ok s := exists_stats_iff.2 (by decide)
  have hshort : s.edgesByType.values.sum < s.totalEdges := by
    rw [(stats_eq_ok_iff.1 hs).2]
    exact hless
  exact ⟨b, s, rfl, hs, hshort, fun h ↦ hshort.ne h.sumEdges⟩

end Graph

end HopSampler
