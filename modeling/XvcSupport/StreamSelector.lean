import XvcSupport.Stages

namespace XvcSupport.AxiStreamSelector

open AxisToJtag

variable {W : ℕ}

/-- The inputs in one cycle; `mIb` is indexed by the port. -/
structure Inp (W : ℕ) where
  sel : Bool
  mIb : Bool → Axis W
  tReady : Bool

/-- `tReady` towards an input. -/
def sIb (streamBuf : Axis W) (i : Inp W) (port : Bool) : Bool :=
  if i.sel = port then rdyLoc streamBuf i.tReady else false

def accepted (streamBuf : Axis W) (i : Inp W) (port : Bool) : List (BitVec W × Bool) :=
  if sIb streamBuf i port then offered (i.mIb port) else []

def transferred (streamBuf : Axis W) (i : Inp W) : List (BitVec W × Bool) :=
  if i.tReady then offered streamBuf else []

/-- The register, the words accepted at the two inputs and those transferred at the output. -/
structure Trace (W : ℕ) where
  streamBuf : Axis W
  inp : List (BitVec W × Bool)
  out : List (BitVec W × Bool)

namespace Trace

def init : Trace W where
  streamBuf := .init W
  inp := []
  out := []

def cycle (s : Trace W) (i : Inp W) : Trace W where
  streamBuf := next s.streamBuf i.sel (i.mIb false) (i.mIb true) i.tReady
  inp := s.inp ++ accepted s.streamBuf i false ++ accepted s.streamBuf i true
  out := s.out ++ transferred s.streamBuf i

def run (evs : List (Inp W)) : Trace W := runFrom cycle init evs

end Trace

variable {streamBuf : Axis W} {i : Inp W}

theorem accepted_of_ne {port : Bool} (h : i.sel ≠ port) : accepted streamBuf i port = [] := by
  rw [accepted, sIb, if_neg h]
  rfl

theorem accepted_append :
    accepted streamBuf i false ++ accepted streamBuf i true =
      if rdyLoc streamBuf i.tReady then
        offered (if i.sel then i.mIb true else i.mIb false)
      else [] := by
  cases hsel : i.sel with
  | false =>
    have hother : accepted streamBuf i true = [] := accepted_of_ne (by simp [hsel])
    rw [hother, accepted, sIb, if_pos hsel, List.append_nil]
    rfl
  | true =>
    have hother : accepted streamBuf i false = [] := accepted_of_ne (by simp [hsel])
    rw [hother, accepted, sIb, if_pos hsel]
    rfl

theorem transferred_append :
    transferred streamBuf i ++
        offered (next streamBuf i.sel (i.mIb false) (i.mIb true) i.tReady) =
      offered streamBuf ++ (accepted streamBuf i false ++ accepted streamBuf i true) := by
  have hout : transferred streamBuf i =
      if streamBuf.tValid && i.tReady then [(streamBuf.tData, streamBuf.tLast)] else [] := by
    rw [transferred, offered]
    cases i.tReady <;> simp
  rw [hout, accepted_append]
  exact selector_next _ _ _ _ _

/-- A word that is not taken stays. -/
theorem next_of_not_ready (hvalid : streamBuf.tValid = true) (hready : i.tReady = false) :
    next streamBuf i.sel (i.mIb false) (i.mIb true) i.tReady = streamBuf := by
  rw [next, rdyLoc, hvalid, hready]
  rfl

theorem Trace.run_conserves (evs : List (Inp W)) :
    (run evs).out ++ offered (run evs).streamBuf = (run evs).inp := by
  have hstep : ∀ (s : Trace W) (i : Inp W), s.out ++ offered s.streamBuf = s.inp →
      (s.cycle i).out ++ offered (s.cycle i).streamBuf = (s.cycle i).inp := by
    intro s i h
    calc
      s.out ++ transferred s.streamBuf i ++ offered (s.cycle i).streamBuf
        = s.out ++ offered s.streamBuf ++
            (accepted s.streamBuf i false ++ accepted s.streamBuf i true) := by
          rw [List.append_assoc, List.append_assoc, ← transferred_append]
          rfl
      _ = s.inp ++ accepted s.streamBuf i false ++ accepted s.streamBuf i true := by
          rw [h, ← List.append_assoc]
  apply runFrom_induction (P := fun s : Trace W => s.out ++ offered s.streamBuf = s.inp) hstep
  rfl

/-- The selector neither loses, repeats nor reorders. -/
theorem selector_lossless (evs : List (Inp W)) (i : Inp W) :
    (Trace.run evs).out ++ offered (Trace.run evs).streamBuf = (Trace.run evs).inp ∧
      (∀ port, i.sel ≠ port → sIb (Trace.run evs).streamBuf i port = false) ∧
      ((Trace.run evs).streamBuf.tValid = true → i.tReady = false →
        ((Trace.run evs).cycle i).streamBuf = (Trace.run evs).streamBuf) := by
  refine ⟨Trace.run_conserves evs, ?_, ?_⟩
  · intro port hsel
    rw [sIb, if_neg hsel]
  · intro hvalid hready
    exact next_of_not_ready hvalid hready

end XvcSupport.AxiStreamSelector
