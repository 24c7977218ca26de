import HopSampler.Proofs.Backings

/-!
# How rows are shared out

A matrix is split from the top into pieces of one size: the number of rows by the number of
partitions, rounded up. So the first partitions are full, the next one gets what is left over and
the last ones get nothing (`Partitions.sizes_of_split`).

**Partitions are near equal only for some numbers of rows.** What rounding up adds is missing in the
last partitions alone. They differ by at most one row exactly if there are no more rows than
partitions, or their number divides that of the rows or the number after it
(`Partitions.balanced_iff`). Seven rows over five partitions are two, two, two, one and none.
-/

-- Sums start from the numeral, also where zero comes with more structure.
attribute [local instance (high)] Zero.ofOfNat0

namespace HopSampler.Partitions

variable {data : Matrix} {count : UInt64} {p : Partitions} {n parts : Nat}

/-- The number of rows of each partition. -/
def sizes (p : Partitions) : List Nat := p.parts.map (·.numRows)

/-- No partition has more than one row more than another. -/
def Balanced (p : Partitions) : Prop := ∀ m ∈ p.sizes, ∀ n ∈ p.sizes, m ≤ n + 1

/-- Every partition has rows. -/
def Filled (p : Partitions) : Prop := ∀ m ∈ p.sizes, m ≠ 0

instance (p : Partitions) : Decidable p.Balanced :=
  inferInstanceAs (Decidable (∀ m ∈ p.sizes, ∀ n ∈ p.sizes, m ≤ n + 1))

instance (p : Partitions) : Decidable p.Filled :=
  inferInstanceAs (Decidable (∀ m ∈ p.sizes, m ≠ 0))

/-! ### The size of a piece -/

/-- What piece `k` gets of `n` rows: a full chunk, or what is left. -/
def share (n parts k : Nat) : Nat := min (chunkSize n parts) (n - k * chunkSize n parts)

theorem share_anti {j k : Nat} (h : j ≤ k) : share n parts k ≤ share n parts j := by
  have hmul := Nat.mul_le_mul_right (chunkSize n parts) h
  rw [share, share]
  omega

theorem chunkSize_pos : 0 < chunkSize n parts := Nat.le_max_right _ _

theorem chunkSize_eq (hparts : 0 < parts) (hn : 0 < n) :
    chunkSize n parts = n / parts + if n % parts = 0 then 0 else 1 := by
  have hdiv := Nat.div_add_mod n parts
  rw [chunkSize, ceilDiv_eq hparts]
  refine Nat.max_eq_left ?_
  split
  · next hmod =>
    rw [hmod, Nat.add_zero] at hdiv
    exact Nat.pos_of_mul_pos_left (hdiv ▸ hn)
  · exact Nat.le_add_left 1 _

/-- Rows that fit one to a partition are laid out so. -/
theorem chunkSize_eq_one (hparts : 0 < parts) (h : n ≤ parts) : chunkSize n parts = 1 := by
  have hle : (n + parts - 1) / parts ≤ 1 := by
    rw [Nat.div_le_iff_le_mul_add_pred hparts]
    omega
  exact Nat.max_eq_right hle

/-- Rounding up adds less than one row for each partition. -/
theorem mul_chunkSize_lt (hparts : 0 < parts) (hn : 0 < n) :
    parts * chunkSize n parts < n + parts := by
  have hdiv := Nat.div_add_mod n parts
  have hmod := Nat.mod_lt n hparts
  rw [chunkSize_eq hparts hn, Nat.mul_add]
  split <;> omega

theorem chunkSize_le (hparts : 0 < parts) (hn : 0 < n) : chunkSize n parts ≤ n := by
  have hlt := mul_chunkSize_lt hparts hn
  have hpred : chunkSize n parts - 1 ≤ parts * (chunkSize n parts - 1) :=
    Nat.le_mul_of_pos_left _ hparts
  rw [Nat.mul_sub_one] at hpred
  omega

/-- The next multiple is one of two numbers exactly if one of them is a multiple. -/
theorem le_succ_iff_of_dvd {m : Nat} (hdvd : parts ∣ m) (hle : n ≤ m) (hlt : m < n + parts) :
    m ≤ n + 1 ↔ parts ∣ n ∨ parts ∣ n + 1 := by
  constructor
  · intro h
    rcases Nat.le_succ_iff.1 h with h | rfl
    · exact .inl (Nat.le_antisymm h hle ▸ hdvd)
    · exact .inr hdvd
  · rintro (h | h)
    · have hzero : m - n = 0 :=
        Nat.eq_zero_of_dvd_of_lt (Nat.dvd_sub hdvd h) (by omega)
      omega
    · have hzero : m - (n + 1) = 0 :=
        Nat.eq_zero_of_dvd_of_lt (Nat.dvd_sub hdvd h) (by omega)
      omega

/-- Before the last piece there are all pieces but one. -/
theorem pred_mul_chunkSize (hparts : 0 < parts) :
    (parts - 1) * chunkSize n parts + chunkSize n parts = parts * chunkSize n parts := by
  rw [← Nat.succ_mul, Nat.succ_eq_add_one, Nat.sub_add_cancel hparts]

/-- The first piece has at most one row more than the last exactly for these numbers of rows. -/
theorem share_zero_le_iff (hparts : 0 < parts) :
    share n parts 0 ≤ share n parts (parts - 1) + 1 ↔
      n ≤ parts ∨ parts ∣ n ∨ parts ∣ n + 1 := by
  by_cases hfew : n ≤ parts
  · refine iff_of_true ?_ (.inl hfew)
    rw [share, chunkSize_eq_one hparts hfew]
    omega
  have hn : 0 < n := by omega
  have hle : n ≤ parts * chunkSize n parts := le_count_mul_chunkSize hparts
  have hlt := mul_chunkSize_lt hparts hn
  have hpred := pred_mul_chunkSize (n := n) hparts
  have htwo : 2 ≤ chunkSize n parts := by
    by_contra hone
    have hmul := Nat.mul_le_mul_left parts (Nat.le_of_not_lt hone)
    omega
  have hzero : share n parts 0 = chunkSize n parts := by
    rw [share, Nat.zero_mul, Nat.sub_zero, Nat.min_eq_left (chunkSize_le hparts hn)]
  -- what rounding up adds is missing in the last piece
  have hshort : share n parts 0 ≤ share n parts (parts - 1) + 1 ↔
      parts * chunkSize n parts ≤ n + 1 := by
    rw [hzero, share]
    omega
  rw [hshort, le_succ_iff_of_dvd (Nat.dvd_mul_right ..) hle hlt, or_iff_right hfew]

/-- The last piece has a row exactly for these numbers of rows. -/
theorem share_last_ne_zero_iff (hparts : 0 < parts) :
    share n parts (parts - 1) ≠ 0 ↔
      n ≠ 0 ∧ (parts ∣ n ∨ parts ≤ n / parts + n % parts) := by
  have hpos : 0 < chunkSize n parts := chunkSize_pos
  have hpred := pred_mul_chunkSize (n := n) hparts
  have hsome : share n parts (parts - 1) ≠ 0 ↔
      parts * chunkSize n parts < n + chunkSize n parts := by
    rw [share]
    omega
  rw [hsome]
  rcases Nat.eq_zero_or_pos n with rfl | hn
  · have hle : chunkSize 0 parts ≤ parts * chunkSize 0 parts := Nat.le_mul_of_pos_left _ hparts
    omega
  have hdiv := Nat.div_add_mod n parts
  rw [chunkSize_eq hparts hn, Nat.dvd_iff_mod_eq_zero, Nat.mul_add]
  split
  · next hmod =>
    have hquotient : 0 < n / parts := Nat.div_pos (Nat.le_of_mod_lt (by omega)) hparts
    omega
  · omega

/-! ### The pieces of a split -/

theorem sizes_of_split (h : split data count = .ok p) :
    p.sizes = (List.range count.toNat).map (share data.height count.toNat) := by
  obtain ⟨-, rfl⟩ := split_eq_ok_iff.1 h
  rw [sizes, List.map_map]
  refine List.map_congr_left fun k _ ↦ ?_
  have hlength := congrArg List.length (rows_slice_min data (k * chunkSize data.height count.toNat)
    (chunkSize data.height count.toNat))
  rw [Matrix.length_rows, List.length_take, List.length_drop, Matrix.length_rows] at hlength
  exact hlength

/-- A piece is full, gets what is left over, or gets nothing. -/
theorem share_eq (n parts k : Nat) :
    share n parts k = if k < n / chunkSize n parts then chunkSize n parts
      else if k = n / chunkSize n parts then n % chunkSize n parts else 0 := by
  rw [share]
  have hpos : 0 < chunkSize n parts := chunkSize_pos
  generalize chunkSize n parts = chunk at hpos ⊢
  have hdiv := Nat.div_add_mod' n chunk
  have hmod := Nat.mod_lt n hpos
  split
  · next hlt =>
    have hnext := Nat.mul_le_mul_right chunk hlt
    rw [Nat.succ_mul] at hnext
    omega
  · next hge =>
    split
    · next heq =>
      rw [heq]
      omega
    · next hne =>
      have hlt : n / chunk < k := by omega
      have hnext := Nat.mul_le_mul_right chunk hlt
      rw [Nat.succ_mul] at hnext
      omega

/-- **The first partitions are full, one gets what is left over, and the others get nothing.** -/
theorem sizes_eq (h : split data count = .ok p) :
    p.sizes = (List.replicate (data.height / chunkSize data.height count.toNat)
        (chunkSize data.height count.toNat) ++
      data.height % chunkSize data.height count.toNat ::
        List.replicate count.toNat 0).take count.toNat := by
  rw [sizes_of_split h]
  refine List.ext_getElem? fun k ↦ ?_
  rw [List.getElem?_map, List.getElem?_take]
  by_cases hk : k < count.toNat
  · rw [List.getElem?_range hk, Option.map_some, if_pos hk, share_eq, List.getElem?_append,
      List.length_replicate]
    split
    · next hfull => rw [List.getElem?_replicate, if_pos hfull]
    · split
      · next heq => rw [heq, Nat.sub_self, List.getElem?_cons_zero]
      · generalize data.height / chunkSize data.height count.toNat = full at *
        rw [List.getElem?_cons, if_neg (by omega), List.getElem?_replicate, if_pos (by omega)]
  · rw [if_neg hk, List.getElem?_eq_none (by rw [List.length_range]; omega), Option.map_none]

/-- Sizes descend, so two of them are enough. -/
theorem balanced_iff (h : split data count = .ok p) :
    p.Balanced ↔ data.height ≤ count.toNat ∨ count.toNat ∣ data.height ∨
      count.toNat ∣ data.height + 1 := by
  have hpos := toNat_pos (split_eq_ok_iff.1 h).1
  rw [← share_zero_le_iff hpos, Balanced, sizes_of_split h]
  simp only [List.forall_mem_map, List.mem_range]
  constructor
  · exact fun hall ↦ hall 0 hpos (count.toNat - 1) (by omega)
  · intro hends j hj k hk
    calc share data.height count.toNat j ≤ share data.height count.toNat 0 :=
          share_anti (Nat.zero_le j)
      _ ≤ share data.height count.toNat (count.toNat - 1) + 1 := hends
      _ ≤ share data.height count.toNat k + 1 :=
          Nat.succ_le_succ (share_anti (Nat.le_sub_one_of_lt hk))

theorem filled_iff (h : split data count = .ok p) :
    p.Filled ↔ data.height ≠ 0 ∧ (count.toNat ∣ data.height ∨
      count.toNat ≤ data.height / count.toNat + data.height % count.toNat) := by
  have hpos := toNat_pos (split_eq_ok_iff.1 h).1
  rw [← share_last_ne_zero_iff hpos, Filled, sizes_of_split h]
  simp only [List.forall_mem_map, List.mem_range]
  constructor
  · exact fun hall ↦ hall (count.toNat - 1) (by omega)
  · intro hlast k hk
    have hle : share data.height count.toNat (count.toNat - 1) ≤ share data.height count.toNat k :=
      share_anti (Nat.le_sub_one_of_lt hk)
    omega

/-- How the rows of a matrix are shared out. -/
structure SharesOut (data : Matrix) (count : UInt64) (p : Partitions) : Prop where
  count_eq : p.count = count.toNat
  total : p.sizes.sum = data.height
  /-- The first partitions are full, one gets what is left over, and the others get nothing. -/
  sizes : p.sizes = (List.replicate (data.height / chunkSize data.height count.toNat)
      (chunkSize data.height count.toNat) ++
    data.height % chunkSize data.height count.toNat ::
      List.replicate count.toNat 0).take count.toNat
  balanced_iff : p.Balanced ↔ data.height ≤ count.toNat ∨ count.toNat ∣ data.height ∨
    count.toNat ∣ data.height + 1
  filled_iff : p.Filled ↔ data.height ≠ 0 ∧ (count.toNat ∣ data.height ∨
    count.toNat ≤ data.height / count.toNat + data.height % count.toNat)

/-- **A matrix is split into as many partitions as are asked for**, which are near equal, or have
rows at all, for some numbers of rows only. -/
theorem exists_split_sharesOut (data : Matrix) {count : UInt64} (h : count ≠ 0) :
    ∃ p, split data count = .ok p ∧ SharesOut data count p := by
  have hsplit : split data count = .ok _ := split_eq_ok_iff.2 ⟨h, rfl⟩
  obtain ⟨pieces, htiles⟩ := exists_tiles_of_split hsplit
  exact ⟨_, hsplit, {
    count_eq := by rw [Partitions.count, List.length_map, List.length_range]
    total := htiles.numRows
    sizes := sizes_eq hsplit
    balanced_iff := balanced_iff hsplit
    filled_iff := filled_iff hsplit }⟩

/-- Seven rows. -/
def sevenRows : Matrix := .zeros 7 1

theorem exists_split_sharesOut_seven :
    (5 : UInt64) ≠ 0 ∧ ∃ p, split sevenRows 5 = .ok p ∧ SharesOut sevenRows 5 p :=
  ⟨by decide, exists_split_sharesOut sevenRows (by decide)⟩

/-- Seven rows over five partitions are not near equal, and one of the partitions is empty. -/
theorem exists_split_uneven : ∃ p, split sevenRows 5 = .ok p ∧ p.sizes = [2, 2, 2, 1, 0] ∧
    ¬p.Balanced ∧ ¬p.Filled := by
  refine ⟨_, rfl, ?_⟩
  decide

end HopSampler.Partitions
