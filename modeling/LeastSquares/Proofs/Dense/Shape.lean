import LeastSquares.Dense.NormalEquations
import LeastSquares.Proofs.Operators.Completing

/-!
# The shape of the normal equations

The triangle of the normal equations has columns of the lengths from `n` down to one.  Factorization
and substitution keep that shape whatever the numbers are, so that a solution has one entry for each
parameter, and the direct step solver always comes to its end.
-/

namespace LeastSquares.Dense

variable {α : Type} {n : Nat}

namespace Triangle

/-- The columns of a triangle have the lengths from `n` down to one. -/
inductive Shaped : Nat → Triangle α → Prop
  | nil : Shaped 0 []
  | cons {n : Nat} {pivot : α} {below : List α} {rest : Triangle α} (hbelow : below.length = n)
      (hrest : Shaped n rest) : Shaped (n + 1) ((pivot :: below) :: rest)

variable [Scalar α] {T L : Triangle α} {b s w y : List α}

theorem shaped_downdate (hT : Shaped n T) (hw : w.length = n) : Shaped n (downdate w T) := by
  induction hT generalizing w with
  | nil => cases w <;> exact .nil
  | cons hbelow hrest ih =>
    obtain ⟨w, ws, rfl⟩ := List.exists_cons_of_length_eq_add_one hw
    simp only [List.length_cons, Nat.add_right_cancel_iff] at hw
    exact .cons (by simp [hbelow, hw]) (ih hw)

theorem length_solveLower (hL : Shaped n L) (hb : b.length = n) (hs : s.length = n) :
    (solveLower L b s).length = n := by
  induction hL generalizing b s with
  | nil => simp [solveLower]
  | cons hbelow hrest ih =>
    obtain ⟨b, bs, rfl⟩ := List.exists_cons_of_length_eq_add_one hb
    obtain ⟨s, ss, rfl⟩ := List.exists_cons_of_length_eq_add_one hs
    simp only [List.length_cons, Nat.add_right_cancel_iff] at hb hs
    simp only [solveLower, List.length_cons, Nat.add_right_cancel_iff]
    exact ih hb (by simp [hs, hbelow])

theorem length_solveUpper (hL : Shaped n L) (hy : y.length = n) :
    (solveUpper L y).length = n := by
  induction hL generalizing y with
  | nil => simp [solveUpper]
  | cons hbelow hrest ih =>
    obtain ⟨y, ys, rfl⟩ := List.exists_cons_of_length_eq_add_one hy
    simp only [List.length_cons, Nat.add_right_cancel_iff] at hy
    simp [solveUpper, ih hy]

theorem length_solve (hL : Shaped n L) (hb : b.length = n) : (solve L b).length = n :=
  length_solveUpper hL (length_solveLower hL hb (by simpa))

theorem shaped_factor? (hT : Shaped n T) (hL : factor? T = some L) : Shaped n L := by
  -- The rest is downdated before it is factorized, so the induction is on the size.
  induction n generalizing T L with
  | zero =>
    cases hT
    obtain rfl : [] = L := by simpa [factor?] using hL
    exact .nil
  | succ n ih =>
    cases hT with
    | @cons _ pivot below rest hbelow hrest =>
      rw [factor?] at hL
      split at hL
      · obtain ⟨L', hL', rfl⟩ := Option.map_eq_some_iff.1 hL
        have hcolumn : (below.map (· / Scalar.sqrt pivot)).length = n := by simpa
        exact .cons hcolumn (ih (shaped_downdate hrest hcolumn) hL')
      · cases hL

end Triangle

namespace NormalEquations

open Triangle

variable [Scalar α] {J : Matrix α}

@[simp] theorem ncols_new (n : Nat) : (new n : NormalEquations α).ncols = n := by
  simp [new, ncols, Vec.zeros]

theorem shaped_gram (columns : List (Array α)) : Shaped columns.length (gram columns) := by
  induction columns with
  | nil => exact .nil
  | cons c columns ih => exact .cons (by simp) ih

theorem shaped_addDiagonal {T : Triangle α} (hT : Shaped n T) (factor : α) (squares : List α) :
    Shaped n (addDiagonal factor squares T) := by
  induction hT generalizing squares with
  | nil => cases squares <;> exact .nil
  | cons hbelow hrest ih =>
    cases squares with
    | nil => exact .cons hbelow hrest
    | cons square squares => exact .cons hbelow (ih squares)

theorem shaped_dampedNormal (hn : J.ncols = n) (dtd : Array α) (lambda : α) :
    Shaped n (dampedNormal J dtd lambda) := by
  have hcolumns : J.columns.toList.length = n := hn
  exact hcolumns ▸ shaped_addDiagonal (shaped_gram _) _ _

theorem solve_completes {m : Nat} {s : NormalEquations α} (hs : s.ncols = n) (hm : J.nrows = m)
    (hn : J.ncols = n) {f dtd : Array α} (lambda : α) {step : Array α} (hf : f.size = m)
    (hdtd : dtd.size = n) (hstep : step.size = n) :
    (s.solve J f dtd lambda step).Ends fun a => a.solver.ncols = n ∧ a.step.size = n := by
  subst hm
  obtain ⟨rhs, hrhs, hsize⟩ :=
    J.completes.applyTranspose (-1) f 0 s.rhs hf (hs.trans hn.symm)
  rw [solve, solveBy, if_pos ⟨hn.trans hs.symm, Nat.le_of_eq (hdtd.trans hs.symm)⟩]
  simp only [hrhs]
  split
  · rename_i factor hfactor
    have hlength : (Factorization.cholesky.solve factor rhs.toList).length = n :=
      length_solve (shaped_factor? (shaped_dampedNormal hn dtd lambda) hfactor)
        (by simpa [hn] using hsize)
    rw [solveInto, if_pos (by simpa [hlength] using hstep)]
    exact ⟨_, rfl, hlength, hlength⟩
  · exact ⟨_, rfl, hsize.trans hn, hstep⟩

end NormalEquations

end LeastSquares.Dense
