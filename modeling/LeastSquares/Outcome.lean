/-!
# Outcomes of operations that can break off

An operation on a state may reach an index or a length that does not exist.  It then breaks off
and leaves the state as far as it has come.  `Outcome` records both, `foldList` runs a list of
operations and `fill` writes the slots of a buffer in order, and `Alike` compares two operations.
The main statements say that a run whose every part ends is the plain fold, that a buffer whose
every slot has a value is the plain map, and that values which do not look at the buffer leave
nothing of it.
-/

namespace LeastSquares

/-- The state that an operation leaves behind, and whether it came to its end. -/
inductive Outcome (σ : Type) where
  | done (s : σ)
  /-- The operation reached outside its data and stopped there. -/
  | brokenOff (s : σ)
  deriving Repr

namespace Outcome

variable {σ τ β : Type}

def state : Outcome σ → σ
  | done s => s
  | brokenOff s => s

def isDone : Outcome σ → Bool
  | done _ => true
  | brokenOff _ => false

def map (f : σ → τ) : Outcome σ → Outcome τ
  | done s => done (f s)
  | brokenOff s => brokenOff (f s)

def guarded (fits : Bool) (s : σ) : Outcome σ := if fits then done s else brokenOff s

def foldList (f : σ → β → Outcome σ) : σ → List β → Outcome σ
  | s, [] => done s
  | s, b :: bs =>
    match f s b with
    | done s' => foldList f s' bs
    | brokenOff s' => brokenOff s'

/-- Writes the slots of a buffer in order, up to the first that has no value. -/
def fill (value : Nat → β → Option β) (out : Array β) : Outcome (Array β) :=
  let values := out.mapIdx value
  let reach := values.findIdx Option.isNone
  let written := out.mapIdx fun i old => if i < reach then (value i old).getD old else old
  guarded (reach == out.size) written

inductive Alike (R B : σ → τ → Prop) : Outcome σ → Outcome τ → Prop
  | done {s : σ} {t : τ} (h : R s t) : Alike R B (.done s) (.done t)
  | brokenOff {s : σ} {t : τ} (h : B s t) : Alike R B (.brokenOff s) (.brokenOff t)

@[simp] theorem state_map (f : σ → τ) (o : Outcome σ) : (o.map f).state = f o.state := by
  cases o <;> rfl

theorem foldList_invariant {f : σ → β → Outcome σ} (I : σ → Prop)
    (hstep : ∀ s b t, I s → f s b = done t → I t) {bs : List β} {s t : σ} (hs : I s)
    (h : foldList f s bs = done t) : I t := by
  induction bs generalizing s with
  | nil =>
    cases h
    exact hs
  | cons b bs ih =>
    unfold foldList at h
    split at h
    · rename_i s' hs'
      exact ih (hstep s b s' hs hs') h
    · cases h

theorem fill_eq_done {value : Nat → β → Option β} {g : Nat → β → β} {out : Array β}
    (h : ∀ i, ∀ hi : i < out.size, value i out[i] = some (g i out[i])) :
    fill value out = done (out.mapIdx g) := by
  have reach : (out.mapIdx value).findIdx Option.isNone = out.size := by
    have : (out.mapIdx value).findIdx Option.isNone = (out.mapIdx value).size := by
      rw [Array.findIdx_eq_size]
      intro v hv
      obtain ⟨i, hi, rfl⟩ := Array.mem_iff_getElem.1 hv
      simp only [Array.size_mapIdx] at hi
      simp [h i hi]
    simpa using this
  have written : (out.mapIdx fun i old => if i < out.size then (value i old).getD old else old) =
      out.mapIdx g := by
    apply Array.ext
    · simp
    · intro i hi _
      simp only [Array.size_mapIdx] at hi
      simp [hi, h i hi]
  simp only [fill, reach, written, guarded, BEq.rfl, if_true]

theorem size_fill {value : Nat → β → Option β} {out r : Array β} (h : fill value out = done r) :
    r.size = out.size := by
  unfold fill guarded at h
  dsimp only at h
  split at h
  · cases h
    simp
  · cases h

theorem Alike.imp {R R' B : σ → τ → Prop} {o : Outcome σ} {o' : Outcome τ} (h : Alike R B o o')
    (hR : ∀ {s t}, R s t → R' s t) : Alike R' B o o' := by
  cases h with
  | done h => exact .done (hR h)
  | brokenOff h => exact .brokenOff h

theorem alike_self {R : σ → Prop} {o : Outcome σ} (h : ∀ s, o = done s → R s) :
    Alike (fun s t => s = t ∧ R s) (fun _ _ => True) o o := by
  cases o with
  | done s => exact .done ⟨rfl, h s rfl⟩
  | brokenOff s => exact .brokenOff trivial

/-- Values that do not look at the buffer leave nothing of it. -/
theorem fill_alike {value value' : Nat → β → Option β} {out out' : Array β}
    (h : ∀ i b b', value i b = value' i b') (hsize : out.size = out'.size) :
    Alike (fun r r' => r = r' ∧ r.size = out.size) (fun _ _ => True) (fill value out)
      (fill value' out') := by
  have hvalues : out.mapIdx value = out'.mapIdx value' := by
    apply Array.ext
    · simpa
    · intro i _ _
      simpa using h i _ _
  unfold fill
  dsimp only
  rw [← hvalues, ← hsize]
  by_cases hreach : (out.mapIdx value).findIdx Option.isNone = out.size
  · simp only [hreach, guarded, BEq.rfl, if_true]
    refine .done ⟨?_, by simp⟩
    apply Array.ext
    · simpa
    · intro i hi hi'
      simp only [Array.size_mapIdx] at hi hi'
      have hsome : (value i out[i]).isSome = true := by
        have hlt : i < (out.mapIdx value).findIdx Option.isNone := by rw [hreach]; exact hi
        have hnot := Array.not_of_lt_findIdx hlt
        simpa [Option.isSome_iff_ne_none] using hnot
      obtain ⟨b, hb⟩ := Option.isSome_iff_exists.1 hsome
      simp [hi, hb, ← h i out[i] out'[i]]
  · rw [guarded, guarded, if_neg (by simpa using hreach), if_neg (by simpa using hreach)]
    exact .brokenOff trivial

end Outcome

end LeastSquares
