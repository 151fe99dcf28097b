import XvcSupport.Responses
import XvcSupport.ClientScans

namespace XvcSupport.Jtag2BSCAN

open JtagTapIR (Generics)
open AxisToJtag (Tap edgesOf response)

variable {L : ℕ} (g : Generics L) (user : User)

/-- The edges as the bridge sees them, with what the user register sends. -/
def withUser (hist : List AxisToJtag.Edge) : List Edge :=
  hist.foldl (fun es e => es ++ [⟨e.rise, e.tms, e.tdi, user es⟩]) []

theorem withUser_snoc (hist : List AxisToJtag.Edge) (e : AxisToJtag.Edge) :
    withUser user (hist ++ [e]) =
      withUser user hist ++ [⟨e.rise, e.tms, e.tdi, user (withUser user hist)⟩] := by
  simp [withUser]

def bridge : Tap := fun hist _ _ => (after g (withUser user hist)).jtdo

variable {user}

theorem withUser_bit (hist : List AxisToJtag.Edge) (b : Bool × Bool) :
    withUser user (hist ++ edgesOf [b]) = clock user (withUser user hist) b.1 b.2 := by
  simp [withUser, edgesOf, clock, rise]

theorem withUser_bits (hist : List AxisToJtag.Edge) (tms tdi : ℕ) (n : ℕ) :
    withUser user (hist ++ edgesOf ((List.range n).map fun i => (tms.testBit i, tdi.testBit i))) =
      clocks user tms tdi (withUser user hist) n := by
  induction n with
  | zero => simp [edgesOf, clocks]
  | succ n ih =>
    rw [List.range_succ, List.map_append, List.map_singleton, AxisToJtag.edgesOf_append,
      ← List.append_assoc, withUser_bit, ih, clocks]

theorem low_withUser (bits : List (Bool × Bool)) : Low (withUser user (edgesOf bits)) := by
  induction bits using List.reverseRecOn with
  | nil => exact ⟨by simp [withUser, edgesOf, Alternating], by simp [withUser, edgesOf]⟩
  | append_singleton bits b ih =>
    rw [AxisToJtag.edgesOf_append, withUser_bit]
    exact ih.clock

theorem response_bridge (hist : List AxisToJtag.Edge) (tms tdi n : ℕ) :
    response (bridge g user) hist
        ((List.range n).map fun i => (tms.testBit i, tdi.testBit i)) =
      (List.range n).map (samples g user tms tdi (withUser user hist) n).testBit := by
  apply List.ext_getElem (by simp)
  intro i hi hi'
  have hlt : i < n := by simpa using hi'
  have htake : ((List.range n).map fun i => (tms.testBit i, tdi.testBit i)).take i =
      (List.range i).map fun i => (tms.testBit i, tdi.testBit i) := by
    rw [← List.map_take, List.take_range, Nat.min_eq_left hlt.le]
  rw [List.getElem_map, List.getElem_range, testBit_samples hlt]
  simp only [response, List.getElem_map, List.getElem_range, AxisToJtag.tdoAt, bridge, htake,
    withUser_bits]

end XvcSupport.Jtag2BSCAN
