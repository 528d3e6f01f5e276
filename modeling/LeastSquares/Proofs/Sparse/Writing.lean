import LeastSquares.Double
import LeastSquares.Proofs.Sparse.Entries
import LeastSquares.Sparse.Matrix

/-!
# Sparse matrices under writes

The place of an entry among the values of a sparse matrix is its index in the list of the stored
entries, so every place belongs to one entry and no write can reach another one; halving in the
column of the entry finds it.  The main theorem `written_finiteMap` says that a matrix is a finite
map on the entries of its pattern: after any writes, an entry has the value that the last write to
it gave.
-/

namespace LeastSquares.Sparse

/-! ## Search by halving -/

/-- The place of a number between two places of an array whose numbers increase there. -/
def bisect? (xs : Array Nat) (x lo hi : Nat) : Option Nat :=
  if lo < hi then
    let mid := (lo + hi) / 2
    if xs.getD mid 0 = x then some mid
    else if xs.getD mid 0 < x then bisect? xs x (mid + 1) hi
    else bisect? xs x lo mid
  else none
termination_by hi - lo

theorem bisect?_eq_some_iff {xs : Array Nat} {x lo hi k : Nat}
    (increase : ∀ i j, lo ≤ i → i < j → j < hi → xs.getD i 0 < xs.getD j 0) :
    bisect? xs x lo hi = some k ↔ lo ≤ k ∧ k < hi ∧ xs.getD k 0 = x := by
  fun_induction bisect? xs x lo hi with
  | case1 lo hi hlt mid hfound =>
    rw [Option.some_inj]
    constructor
    · rintro rfl
      exact ⟨by omega, by omega, hfound⟩
    · rintro ⟨hle, hk, hx⟩
      rcases Nat.lt_trichotomy mid k with h | h | h
      · have := increase mid k (by omega) h hk
        omega
      · exact h
      · have := increase k mid hle h (by omega)
        omega
  | case2 lo hi hlt mid hne hbelow ih =>
    rw [ih fun i j hi hij hj => increase i j (by omega) hij hj]
    refine ⟨fun h => ⟨by omega, h.2⟩, fun ⟨hle, hk, hx⟩ => ⟨?_, hk, hx⟩⟩
    by_contra hk'
    rcases Nat.lt_or_eq_of_le (Nat.le_of_not_lt hk') with h | h
    · have := increase k mid hle h (by omega)
      omega
    · exact hne (h ▸ hx)
  | case3 lo hi hlt mid hne habove ih =>
    rw [ih fun i j hi hij hj => increase i j hi hij (by omega)]
    refine ⟨fun h => ⟨h.1, by omega, h.2.2⟩, fun ⟨hle, hk, hx⟩ => ⟨hle, ?_, hx⟩⟩
    by_contra hk'
    rcases Nat.lt_or_eq_of_le (Nat.le_of_not_lt hk') with h | h
    · have := increase mid k (by omega) h hk
      omega
    · exact hne (h ▸ hx)
  | case4 lo hi hlt =>
    refine ⟨nofun, fun h => ?_⟩
    omega

namespace Pattern

/-! ## The place of an entry -/

variable (p : Pattern) {row col k : Nat}

theorem length_stored : p.stored.length = p.nnz := by
  have hlength := congrArg List.length p.map_fst_stored
  rwa [List.length_map, Array.length_toList] at hlength

theorem length_rows (hcol : col < p.ncols) :
    (p.rows col).length = pointer p.colPtrs (col + 1) - pointer p.colPtrs col := by
  have hle : pointer p.colPtrs (col + 1) ≤ p.rowIndices.size := p.pointer_le_size hcol
  simp only [rows, columnSlice, Array.length_toList, Array.size_extract]
  omega

theorem getElem?_stored_add {i : Nat} (hcol : col < p.ncols) (hi : (p.rows col)[i]? = some row) :
    p.stored[pointer p.colPtrs col + i]? = some (row, col) := by
  let entriesOf (c : Nat) : List (Nat × Nat) := (p.rows c).map fun row => (row, c)
  obtain ⟨rest, hrest⟩ : ∃ rest, p.stored =
      (List.range col).flatMap entriesOf ++ (entriesOf col ++ rest) := by
    obtain ⟨d, hd⟩ := Nat.exists_eq_add_of_le hcol
    refine ⟨((List.range d).map (col + 1 + ·)).flatMap entriesOf, ?_⟩
    rw [stored, hd, List.range_add, List.range_succ, List.flatMap_append, List.flatMap_append,
      List.flatMap_singleton, List.append_assoc]
  have hbefore : ((List.range col).flatMap entriesOf).length = pointer p.colPtrs col := by
    rw [p.pointer_eq_length hcol.le]
    simp [entriesOf, List.length_flatMap]
  obtain ⟨hlt, -⟩ := List.getElem?_eq_some_iff.1 hi
  rw [hrest, ← hbefore, List.getElem?_append_right (Nat.le_add_right _ _),
    Nat.add_sub_cancel_left, List.getElem?_append_left (by simpa [entriesOf] using hlt)]
  simp [entriesOf, hi]

theorem getElem?_stored_eq_some_iff :
    p.stored[k]? = some (row, col) ↔ Stores p.colPtrs p.rowIndices col k row := by
  have count := p.compressed.count
  constructor
  · intro hk
    obtain ⟨hcol, hrow⟩ := (p.mem_stored row col).1 (List.mem_of_getElem? hk)
    obtain ⟨i, hi⟩ := List.getElem?_of_mem hrow
    have hplace := p.getElem?_stored_add hcol hi
    -- No entry is stored twice, so the index in the list is the one in the column.
    obtain rfl : k = pointer p.colPtrs col + i :=
      (List.getElem?_inj (List.getElem?_eq_some_iff.1 hk).1 p.nodup_stored).1
        (hk.trans hplace.symm)
    exact (stores_add_iff (by omega) i row).2 hi
  · intro hk
    have hcol : col + 1 < p.colPtrs.size := by
      obtain ⟨_, _, -, hstop, -⟩ := hk
      exact (Array.getElem?_eq_some_iff.1 hstop).1
    obtain ⟨i, rfl, hi⟩ := hk.exists_add hcol
    exact p.getElem?_stored_add (by omega) hi

/-- The place of an entry is its index in the list of the stored entries. -/
theorem position?_eq_some_iff : p.position? row col = some k ↔ p.stored[k]? = some (row, col) := by
  have count := p.compressed.count
  rw [getElem?_stored_eq_some_iff, position?]
  split
  case isTrue hcol =>
    have hnodup : (p.rows col).Nodup := (p.compressed.increasing col hcol).imp Nat.ne_of_lt
    constructor
    · intro h
      obtain ⟨i, hi, rfl⟩ := Option.map_eq_some_iff.1 h
      obtain ⟨hlt, hrow, -⟩ := List.idxOf?_eq_some_iff.1 hi
      exact (stores_add_iff (by omega) i row).2 (List.getElem?_eq_some_iff.2 ⟨hlt, hrow⟩)
    · intro h
      obtain ⟨i, rfl, hi⟩ := h.exists_add (by omega)
      obtain ⟨hlt, hrow⟩ := List.getElem?_eq_some_iff.1 hi
      refine Option.map_eq_some_iff.2 ⟨i, List.idxOf?_eq_some_iff.2 ⟨hlt, hrow, ?_⟩, rfl⟩
      intro j hj heq
      exact absurd (hnodup.getElem_inj_iff.1 (heq.trans hrow.symm)) (by omega)
  case isFalse hcol =>
    refine ⟨nofun, fun h => ?_⟩
    obtain ⟨_, _, -, hstop, -⟩ := h
    have hlt := (Array.getElem?_eq_some_iff.1 hstop).1
    exact absurd hlt (by omega)

theorem position?_eq_none_iff : p.position? row col = none ↔ (row, col) ∉ p.stored := by
  rw [Option.eq_none_iff_forall_ne_some, List.mem_iff_getElem?, not_exists]
  exact forall_congr' fun k => not_congr p.position?_eq_some_iff

theorem position?_lt (h : p.position? row col = some k) : k < p.nnz :=
  p.length_stored ▸ (List.getElem?_eq_some_iff.1 (p.position?_eq_some_iff.1 h)).1

theorem position?_inj {row' col' : Nat} (h : p.position? row col = some k)
    (h' : p.position? row' col' = some k) : row = row' ∧ col = col' := by
  rw [position?_eq_some_iff] at h h'
  exact Prod.mk.inj (Option.some.inj (h.symm.trans h'))

theorem bijOn_position? : Set.BijOn (fun e : Nat × Nat => p.position? e.1 e.2)
    {e | e ∈ p.stored} {place | ∃ k < p.nnz, some k = place} := by
  refine ⟨fun e he => ?_, fun e he e' he' heq => ?_, ?_⟩
  · obtain ⟨k, hk⟩ := List.getElem?_of_mem he
    have hplace := p.position?_eq_some_iff.2 hk
    exact ⟨k, p.position?_lt hplace, hplace.symm⟩
  · obtain ⟨k, hk⟩ := List.getElem?_of_mem he
    have hplace := p.position?_eq_some_iff.2 hk
    obtain ⟨hrow, hcol⟩ := p.position?_inj hplace (heq.symm.trans hplace)
    exact Prod.ext hrow hcol
  · rintro _ ⟨k, hk, rfl⟩
    rw [← p.length_stored] at hk
    exact ⟨p.stored[k], List.getElem_mem hk,
      p.position?_eq_some_iff.2 (List.getElem?_eq_getElem hk)⟩

theorem position?_add {i : Nat} (hcol : col < p.ncols) (hi : (p.rows col)[i]? = some row) :
    p.position? row col = some (pointer p.colPtrs col + i) :=
  p.position?_eq_some_iff.2 (p.getElem?_stored_add hcol hi)

theorem getElem?_rows_of_position? (h : p.position? row col = some k) :
    (p.rows col)[k - pointer p.colPtrs col]? = some row := by
  have stored := p.getElem?_stored_eq_some_iff.1 (p.position?_eq_some_iff.1 h)
  obtain ⟨_, _, -, hstop, -⟩ := id stored
  exact ((stores_iff (Array.getElem?_eq_some_iff.1 hstop).1 k row).1 stored).2

theorem position?_eq_some_iff_colRange? : p.position? row col = some k ↔
    ∃ start stop, p.colRange? col = some (start, stop) ∧ start ≤ k ∧ k < stop ∧
      p.rowIndices[k]? = some row := by
  have count := p.compressed.count
  rw [position?_eq_some_iff, getElem?_stored_eq_some_iff]
  constructor
  · rintro ⟨start, stop, hstart, hstop, hle, hlt, hrow⟩
    have hcol : col < p.ncols := by
      have hlt := (Array.getElem?_eq_some_iff.1 hstop).1
      omega
    rw [← pointer_of_getElem? hstart] at hle
    rw [← pointer_of_getElem? hstop] at hlt
    exact ⟨_, _, if_pos hcol, hle, hlt, hrow⟩
  · rintro ⟨start, stop, hrange, hle, hlt, hrow⟩
    unfold colRange? at hrange
    split at hrange
    · cases hrange
      exact ⟨_, _, getElem?_eq_pointer (by omega), getElem?_eq_pointer (by omega), hle, hlt, hrow⟩
    · cases hrange

/-- Halving between the pointers of a column finds the place of an entry, as the rows increase. -/
theorem position?_eq_bisect? {start stop : Nat} (hrange : p.colRange? col = some (start, stop)) :
    p.position? row col = bisect? p.rowIndices row start stop := by
  have hcol : col < p.ncols := by
    unfold colRange? at hrange
    split at hrange
    case isTrue hcol => exact hcol
    case isFalse => cases hrange
  have count := p.compressed.count
  have hstop : stop ≤ p.rowIndices.size := by
    cases (if_pos hcol).symm.trans hrange
    exact p.pointer_le_size hcol
  have stores {k : Nat} (hle : start ≤ k) (hlt : k < stop) :
      Stores p.colPtrs p.rowIndices col k (p.rowIndices.getD k 0) := by
    rw [← getElem?_stored_eq_some_iff, ← position?_eq_some_iff, position?_eq_some_iff_colRange?]
    exact ⟨start, stop, hrange, hle, hlt, by simp [show k < p.rowIndices.size by omega]⟩
  have increase (i j : Nat) (hi : start ≤ i) (hij : i < j) (hj : j < stop) :
      p.rowIndices.getD i 0 < p.rowIndices.getD j 0 :=
    (rowsIncrease_iff (by omega)).2 (p.compressed.increasing col hcol) i j _ _ hij
      (stores hi (by omega)) (stores (by omega) hj)
  ext k
  rw [bisect?_eq_some_iff increase, position?_eq_some_iff_colRange?]
  constructor
  · rintro ⟨start', stop', hrange', hle, hlt, hrow⟩
    cases hrange.symm.trans hrange'
    exact ⟨hle, hlt, by rw [Array.getD_eq_getD_getElem?, hrow, Option.getD_some]⟩
  · rintro ⟨hle, hlt, rfl⟩
    exact ⟨start, stop, hrange, hle, hlt, by simp [show k < p.rowIndices.size by omega]⟩

end Pattern

namespace Matrix

variable {α : Type} {m : Matrix α} {p : Pattern} {row col row' col' : Nat}

/-! ## One write -/

inductive Write (α : Type) where
  | entry (row col : Nat) (value : α)
  | clear
  /-- New values for some of the entries of a column, in the order of its rows. -/
  | column (col : Nat) (values : Array (Option α))

/-- The write gives a value to an entry. -/
inductive Write.Gives (p : Pattern) [Zero α] : Write α → Nat → Nat → α → Prop
  | entry {row col : Nat} {value : α} (stored : (row, col) ∈ p.stored) :
      Gives p (.entry row col value) row col value
  | clear {row col : Nat} (stored : (row, col) ∈ p.stored) : Gives p .clear row col 0
  | column {row col i : Nat} {value : α} {values : Array (Option α)} (hcol : col < p.ncols)
      (fits : values.size = (p.rows col).length) (hrow : (p.rows col)[i]? = some row)
      (hvalue : values[i]? = some (some value)) : Gives p (.column col values) row col value

theorem Write.Gives.stored [Zero α] {w : Write α} {value : α} (h : w.Gives p row col value) :
    (row, col) ∈ p.stored := by
  cases h with
  | entry stored => exact stored
  | clear stored => exact stored
  | column hcol _ hrow => exact (p.mem_stored row col).2 ⟨hcol, List.mem_of_getElem? hrow⟩

variable [Scalar α]

def patched (m : Matrix α) (col : Nat) (values : Array (Option α)) : Array α :=
  values.mapIdx fun i new => new.getD (m.values.getD (pointer m.pattern.colPtrs col + i) 0)

/-- The matrix after a write; one that fails leaves it as it was. -/
def write (m : Matrix α) : Write α → Matrix α
  | .entry row col value =>
    match m.set row col value with
    | .ok m' => m'
    | .error _ => m
  | .clear => m.clear
  | .column col values => (m.writeColumn? col (m.patched col values)).getD m

theorem get_of_position? {k : Nat} (h : m.pattern.position? row col = some k) :
    m.get row col = m.values.getD k 0 := by
  rw [get, h]

theorem get_of_not_mem (h : (row, col) ∉ m.pattern.stored) : m.get row col = 0 := by
  rw [get, m.pattern.position?_eq_none_iff.2 h]

omit [Scalar α] in
theorem exists_position? (h : (row, col) ∈ m.pattern.stored) :
    ∃ k, m.pattern.position? row col = some k ∧ k < m.values.size := by
  obtain ⟨k, hk⟩ := List.getElem?_of_mem h
  have hplace := m.pattern.position?_eq_some_iff.2 hk
  exact ⟨k, hplace, m.size_values ▸ m.pattern.position?_lt hplace⟩

omit [Scalar α] in
theorem set_of_position? {k : Nat} (value : α) (h : m.pattern.position? row col = some k) :
    ∃ m', m.set row col value = .ok m' ∧ m'.pattern = m.pattern ∧
      m'.values = m.values.setIfInBounds k value := by
  unfold set
  split
  · rename_i k' hk'
    cases h.symm.trans hk'
    exact ⟨_, rfl, rfl, rfl⟩
  · rename_i hnone
    cases h.symm.trans hnone

omit [Scalar α] in
theorem set_of_not_mem (value : α) (h : (row, col) ∉ m.pattern.stored) :
    m.set row col value = .error (.missingEntry row col) := by
  have hnone := m.pattern.position?_eq_none_iff.2 h
  unfold set
  split
  · rename_i k hk
    cases hnone.symm.trans hk
  · rfl

theorem write_entry {k : Nat} (value : α) (h : m.pattern.position? row col = some k) :
    (m.write (.entry row col value)).pattern = m.pattern ∧
      (m.write (.entry row col value)).values = m.values.setIfInBounds k value := by
  obtain ⟨m', hset, hm'⟩ := set_of_position? value h
  rwa [write, hset]

theorem write_entry_of_not_mem (value : α) (h : (row, col) ∉ m.pattern.stored) :
    m.write (.entry row col value) = m := by
  rw [write, set_of_not_mem value h]

theorem write_column {values : Array (Option α)} (hcol : col < m.pattern.ncols)
    (fits : values.size = (m.pattern.rows col).length) :
    (m.write (.column col values)).pattern = m.pattern ∧
      ∀ k < m.values.size, (m.write (.column col values)).values.getD k 0 =
        if pointer m.pattern.colPtrs col ≤ k ∧ k < pointer m.pattern.colPtrs (col + 1) then
          (values.getD (k - pointer m.pattern.colPtrs col) none).getD (m.values.getD k 0)
        else m.values.getD k 0 := by
  have hlength := m.pattern.length_rows hcol
  have hsize : (m.patched col values).size =
      pointer m.pattern.colPtrs (col + 1) - pointer m.pattern.colPtrs col := by
    simpa [patched] using fits.trans hlength
  have hrange : m.pattern.colRange? col =
      some (pointer m.pattern.colPtrs col, pointer m.pattern.colPtrs (col + 1)) := if_pos hcol
  simp only [write, writeColumn?, hrange, if_pos hsize, Option.getD_some, true_and]
  intro k hk
  simp only [Array.getD_eq_getD_getElem?, Array.getElem?_mapIdx, Array.getElem?_eq_getElem hk,
    Option.map_some, Option.getD_some]
  split
  case isFalse => rfl
  case isTrue hin =>
    have hi : k - pointer m.pattern.colPtrs col < values.size := by omega
    have hk' : pointer m.pattern.colPtrs col + (k - pointer m.pattern.colPtrs col) = k := by omega
    simp [patched, hi, hk', hk]

theorem write_column_of_not_fits {values : Array (Option α)}
    (h : ¬(col < m.pattern.ncols ∧ values.size = (m.pattern.rows col).length)) :
    m.write (.column col values) = m := by
  have hnone : m.writeColumn? col (m.patched col values) = none := by
    unfold writeColumn? Pattern.colRange?
    by_cases hcol : col < m.pattern.ncols
    · have hsize : ¬(m.patched col values).size =
          pointer m.pattern.colPtrs (col + 1) - pointer m.pattern.colPtrs col := by
        rw [← m.pattern.length_rows hcol]
        exact fun fits => h ⟨hcol, by simpa [patched] using fits⟩
      simp only [if_pos hcol, if_neg hsize]
    · simp only [if_neg hcol]
  rw [write, hnone, Option.getD_none]

theorem pattern_write (w : Write α) : (m.write w).pattern = m.pattern := by
  cases w with
  | entry row col value =>
    by_cases stored : (row, col) ∈ m.pattern.stored
    · obtain ⟨k, hk, -⟩ := exists_position? stored
      exact (write_entry value hk).1
    · rw [write_entry_of_not_mem value stored]
  | clear => rfl
  | column col values =>
    by_cases h : col < m.pattern.ncols ∧ values.size = (m.pattern.rows col).length
    · exact (write_column h.1 h.2).1
    · rw [write_column_of_not_fits h]

theorem get_write_of_gives {w : Write α} {value : α} (h : w.Gives m.pattern row col value) :
    (m.write w).get row col = value := by
  have stored : (row, col) ∈ m.pattern.stored := h.stored
  obtain ⟨k, hk, hlt⟩ := exists_position? stored
  have hk' : (m.write w).pattern.position? row col = some k := (pattern_write w).symm ▸ hk
  rw [get_of_position? hk']
  cases h with
  | entry => simp [(write_entry value hk).2, hlt]
  | clear => simp [write, clear, hlt]
  | @column _ _ i _ values hcol fits hrow hvalue =>
    obtain rfl : pointer m.pattern.colPtrs col + i = k :=
      Option.some.inj ((m.pattern.position?_add hcol hrow).symm.trans hk)
    have hi : i < (m.pattern.rows col).length := (List.getElem?_eq_some_iff.1 hrow).1
    have hlength := m.pattern.length_rows hcol
    rw [(write_column hcol fits).2 _ hlt, if_pos ⟨by omega, by omega⟩, Nat.add_sub_cancel_left,
      Array.getD_eq_getD_getElem?, hvalue, Option.getD_some, Option.getD_some]

theorem get_write_of_not_gives {w : Write α} (h : ∀ value, ¬ w.Gives m.pattern row col value) :
    (m.write w).get row col = m.get row col := by
  by_cases stored : (row, col) ∈ m.pattern.stored
  case neg =>
    have stored' : (row, col) ∉ (m.write w).pattern.stored := (pattern_write w).symm ▸ stored
    rw [get_of_not_mem stored, get_of_not_mem stored']
  obtain ⟨k, hk, hlt⟩ := exists_position? stored
  have hk' : (m.write w).pattern.position? row col = some k := (pattern_write w).symm ▸ hk
  rw [get_of_position? hk, get_of_position? hk']
  cases w with
  | entry row' col' value =>
    by_cases stored' : (row', col') ∈ m.pattern.stored
    · obtain ⟨k', hk'', -⟩ := exists_position? stored'
      have hne : k' ≠ k := by
        rintro rfl
        obtain ⟨rfl, rfl⟩ := m.pattern.position?_inj hk hk''
        exact h value (.entry stored)
      rw [(write_entry value hk'').2, Array.getD_eq_getD_getElem?,
        Array.getElem?_setIfInBounds_ne hne, Array.getD_eq_getD_getElem?]
    · rw [write_entry_of_not_mem value stored']
  | clear => exact absurd (.clear stored) (h 0)
  | column col' values =>
    by_cases fits : col' < m.pattern.ncols ∧ values.size = (m.pattern.rows col').length
    case neg => rw [write_column_of_not_fits fits]
    rw [(write_column fits.1 fits.2).2 k hlt]
    split
    case isFalse => rfl
    case isTrue hin =>
      -- The place belongs to the column, so the entry is in it, and was left out.
      obtain ⟨_, _, -, -, -, hrow⟩ := m.pattern.position?_eq_some_iff_colRange?.1 hk
      have hplace : m.pattern.position? row col' = some k :=
        m.pattern.position?_eq_some_iff_colRange?.2 ⟨_, _, if_pos fits.1, hin.1, hin.2, hrow⟩
      obtain ⟨-, rfl⟩ := m.pattern.position?_inj hk hplace
      have hrow := m.pattern.getElem?_rows_of_position? hplace
      rw [Array.getD_eq_getD_getElem?]
      match hnew : values[k - pointer m.pattern.colPtrs col]? with
      | none => rfl
      | some none => rfl
      | some (some value) => exact absurd (.column fits.1 fits.2 hrow hnew) (h value)

/-! ## Any number of writes -/

def written (p : Pattern) (writes : List (Write α)) : Matrix α := writes.foldl write (zeros p)

theorem pattern_foldl_write (writes : List (Write α)) :
    (writes.foldl write m).pattern = m.pattern := by
  induction writes generalizing m with
  | nil => rfl
  | cons w writes ih => exact ih.trans (pattern_write w)

@[simp] theorem pattern_written (p : Pattern) (writes : List (Write α)) :
    (written p writes).pattern = p := pattern_foldl_write writes

theorem get_foldl_write_of_not_gives {writes : List (Write α)}
    (h : ∀ w ∈ writes, ∀ value, ¬ w.Gives m.pattern row col value) :
    (writes.foldl write m).get row col = m.get row col := by
  induction writes generalizing m with
  | nil => rfl
  | cons w writes ih =>
    have hrest : ∀ w' ∈ writes, ∀ value, ¬ w'.Gives (m.write w).pattern row col value := by
      rw [pattern_write]
      exact fun w' hw' => h w' (List.mem_cons_of_mem _ hw')
    exact (ih hrest).trans (get_write_of_not_gives (h w List.mem_cons_self))

theorem get_zeros : (zeros p : Matrix α).get row col = 0 := by
  by_cases stored : (row, col) ∈ p.stored
  · obtain ⟨k, hk, hlt⟩ := exists_position? (m := (zeros p : Matrix α)) stored
    rw [get_of_position? hk]
    simp [zeros, Vec.zeros] at hlt ⊢
    simp [hlt]
  · exact get_of_not_mem stored

theorem get_written_of_last {before after : List (Write α)} {w : Write α} {value : α}
    (gives : w.Gives p row col value)
    (last : ∀ w' ∈ after, ∀ value', ¬ w'.Gives p row col value') :
    (written p (before ++ w :: after)).get row col = value := by
  have hwritten : written p (before ++ w :: after) =
      after.foldl write ((written p before).write w) := by
    rw [written, written, List.foldl_append, List.foldl_cons]
  rw [hwritten, get_foldl_write_of_not_gives]
  · exact get_write_of_gives ((pattern_written p before).symm ▸ gives)
  · rwa [pattern_write, pattern_written]

/-- The matrix is what the writes to the pattern leave behind. -/
structure Remembers (p : Pattern) (writes : List (Write α)) (m : Matrix α) : Prop where
  pattern : m.pattern = p
  size_values : m.values.size = p.nnz
  last : ∀ before w after row col value, writes = before ++ w :: after →
    w.Gives p row col value → (∀ w' ∈ after, ∀ value', ¬ w'.Gives p row col value') →
      m.get row col = value
  untouched : ∀ row col, (∀ w ∈ writes, ∀ value, ¬ w.Gives p row col value) → m.get row col = 0
  frame : ∀ w row col, (∀ value, ¬ w.Gives p row col value) →
    (m.write w).get row col = m.get row col
  set : ∀ row col value, (row, col) ∈ p.stored →
    m.set row col value = .ok (m.write (.entry row col value))
  missing : ∀ row col value, (row, col) ∉ p.stored → m.get row col = 0 ∧
    m.set row col value = .error (.missingEntry row col) ∧ m.write (.entry row col value) = m

theorem remembers_written (p : Pattern) (writes : List (Write α)) :
    (written p writes).Remembers p writes where
  pattern := pattern_written p writes
  size_values := by rw [(written p writes).size_values, pattern_written]
  last := by
    rintro before w after row col value rfl gives last
    exact get_written_of_last gives last
  untouched row col h := (get_foldl_write_of_not_gives h).trans get_zeros
  frame w row col h := get_write_of_not_gives ((pattern_written p writes).symm ▸ h)
  set row col value stored := by
    obtain ⟨k, hk, -⟩ :=
      exists_position? (m := written p writes) ((pattern_written p writes).symm ▸ stored)
    obtain ⟨m', hset, -⟩ := set_of_position? value hk
    rw [write, hset]
  missing row col value stored := by
    have outside : (row, col) ∉ (written p writes).pattern.stored :=
      (pattern_written p writes).symm ▸ stored
    exact ⟨get_of_not_mem outside, set_of_not_mem value outside,
      write_entry_of_not_mem value outside⟩

/-- The places of a pattern are one for each stored entry, and a matrix over it is a finite map on
these entries: whatever writes it went through, it remembers the last one to each entry. -/
theorem written_finiteMap (p : Pattern) :
    (∀ row col k, p.position? row col = some k ↔ ∃ start stop,
      p.colRange? col = some (start, stop) ∧ start ≤ k ∧ k < stop ∧
        p.rowIndices[k]? = some row) ∧
    (∀ row col start stop, p.colRange? col = some (start, stop) →
      p.position? row col = bisect? p.rowIndices row start stop) ∧
    (∀ row col, p.nrows ≤ row ∨ p.ncols ≤ col → p.position? row col = none) ∧
    Set.BijOn (fun e : Nat × Nat => p.position? e.1 e.2) {e | e ∈ p.stored}
      {place | ∃ k < p.nnz, some k = place} ∧
    ∀ writes : List (Write α), (written p writes).Remembers p writes := by
  refine ⟨fun row col k => p.position?_eq_some_iff_colRange?,
    fun row col start stop => p.position?_eq_bisect?, fun row col h => ?_, p.bijOn_position?,
    remembers_written p⟩
  rw [p.position?_eq_none_iff]
  intro stored
  obtain ⟨hrow, hcol⟩ := p.lt_of_mem_stored stored
  omega

/-- A column that is written, cleared and written again in part, and an entry outside. -/
theorem written_finiteMap_two_columns :
    let p : Pattern := ⟨3, 2, #[0, 2, 4], #[0, 1, 1, 2], (violation?_eq_none_iff ..).1 rfl⟩
    let writes : List (Write Float) := [.entry 0 0 1, .column 1 #[some 2, some 3], .clear,
      .column 1 #[none, some 4], .entry 1 1 5, .entry 2 0 6]
    Pattern.ofArrays? 3 2 #[0, 2, 4] #[0, 1, 1, 2] = some (.ok p) ∧
      p.position? 2 1 = some 3 ∧ p.position? 3 1 = none ∧
      (written p writes).get 0 0 = 0 ∧ (written p writes).get 1 1 = 5 ∧
      (written p writes).get 2 1 = 4 ∧
      (written p writes).set 2 0 7 = .error (.missingEntry 2 0) := by
  intro p writes
  obtain ⟨hplace, -, hnone, -, hwritten⟩ := written_finiteMap (α := Float) p
  have h := hwritten writes
  refine ⟨rfl, (hplace 2 1 3).2 ⟨2, 4, rfl, by decide, by decide, rfl⟩, hnone 3 1 (.inl le_rfl),
    ?_, ?_, ?_, (h.missing 2 0 7 (by decide)).2.1⟩
  · refine h.last [_, _] .clear _ 0 0 0 rfl (.clear (by decide)) ?_
    simp only [List.forall_mem_cons, List.not_mem_nil, false_imp_iff, implies_true, and_true]
    refine ⟨?_, ?_, ?_⟩ <;> rintro value ⟨⟩
  · refine h.last [_, _, _, _] (.entry 1 1 5) _ 1 1 5 rfl (.entry (by decide)) ?_
    simp only [List.mem_singleton, forall_eq]
    rintro value ⟨⟩
  · refine h.last [_, _, _] (.column 1 #[none, some 4]) _ 2 1 4 rfl
      (.column (i := 1) (by decide) rfl rfl rfl) ?_
    simp only [List.forall_mem_cons, List.not_mem_nil, false_imp_iff, implies_true, and_true]
    refine ⟨?_, ?_⟩ <;> rintro value ⟨⟩

end Matrix

end LeastSquares.Sparse
