import Mathlib.Algebra.Group.Nat.Defs
import Mathlib.Data.List.Basic

/-!
What a sender puts on the wire over 32-bit sequence numbers: data for the first time or again, a
FIN, and the acknowledgments that come back. Logs have the newest entry first.
-/
namespace SendLog

inductive Entry where
  | first (seq : UInt32) (bytes : List UInt8)
  | again (seq : UInt32) (bytes : List UInt8)
  | fin (seq : UInt32)
  | ack (no : UInt32)
  deriving DecidableEq

/-- The bytes of all data segments, in the order of their first transmission. -/
def sent : List Entry → List UInt8
  | [] => []
  | .first _ bytes::older => sent older ++ bytes
  | .again _ _::older | .fin _::older | .ack _::older => sent older

def fins : List Entry → List UInt32
  | [] => []
  | .fin seq::older => seq::fins older
  | .first _ _::older | .again _ _::older | .ack _::older => fins older

/-- The data segments whose end has not been acknowledged since they went out. -/
def inFlight : List Entry → List (UInt32 × List UInt8)
  | [] => []
  | .first seq bytes::older => (seq,bytes)::inFlight older
  | .ack no::older => (inFlight older).filter fun d => d.1+UInt32.ofNat d.2.length ≠ no
  | .again _ _::older | .fin _::older => inFlight older

/-- All numbers of the data lie before the FIN. -/
def Precedes (seq : UInt32) (bytes : List UInt8) (fin : UInt32) : Prop :=
  bytes.length ≤ (fin-seq).toNat ∧ (fin-seq).toNat < 2^31

/-- New data follows the data before it, without gap, from `start` on, with at most one segment in
flight; data sent again was sent before under its number; and no data lies at or after an earlier
FIN. -/
def Sound (start : UInt32) : List Entry → Prop
  | [] => True
  | .first seq bytes::older =>
    seq = start+UInt32.ofNat (sent older).length ∧
      (inFlight (.first seq bytes::older)).length ≤ 1 ∧
      (∀ f ∈ fins older, Precedes seq bytes f) ∧ Sound start older
  | .again seq bytes::older =>
    .first seq bytes ∈ older ∧ (∀ f ∈ fins older, Precedes seq bytes f) ∧ Sound start older
  | .fin _::older | .ack _::older => Sound start older

instance (seq : UInt32) (bytes : List UInt8) (fin : UInt32) : Decidable (Precedes seq bytes fin) :=
  inferInstanceAs (Decidable (_ ∧ _))

instance Sound.decidable (start : UInt32) : DecidablePred (Sound start)
  | [] => isTrue trivial
  | .first seq bytes::older =>
    haveI := Sound.decidable start older
    -- over the list: numbers are a finite type, and a search through all of them is far too long
    haveI : Decidable (∀ f ∈ fins older, Precedes seq bytes f) := List.decidableBAll _ _
    inferInstanceAs (Decidable (_ ∧ _ ∧ _ ∧ Sound start older))
  | .again seq bytes::older =>
    haveI := Sound.decidable start older
    haveI : Decidable (∀ f ∈ fins older, Precedes seq bytes f) := List.decidableBAll _ _
    inferInstanceAs (Decidable (_ ∧ _ ∧ Sound start older))
  | .fin _::older | .ack _::older => Sound.decidable start older

variable {start seq : UInt32} {log : List Entry} {bytes : List UInt8}

/-- At any time at most one data segment is in flight. -/
theorem Sound.inFlight_le_one (h : Sound start log) : (inFlight log).length ≤ 1 := by
  induction log with
  | nil => simp [inFlight]
  | cons e older ih =>
    cases e with
    | first seq bytes => exact h.2.1
    | again seq bytes => exact ih h.2.2
    | fin seq => exact ih h
    | ack no => exact Nat.le_trans (List.length_filter_le _ _) (ih h)

/-- New data may go out when everything before it was acknowledged. -/
theorem Sound.first (h : Sound start log) (hseq : seq = start+UInt32.ofNat (sent log).length)
    (hidle : inFlight log = []) (hfins : fins log = []) :
    Sound start (.first seq bytes::log) := by
  refine ⟨hseq,?_,?_,h⟩
  · simp [inFlight,hidle]
  · simp [hfins]

theorem Sound.again (h : Sound start log) (hmem : Entry.first seq bytes ∈ log)
    (hfins : fins log = []) : Sound start (.again seq bytes::log) := by
  refine ⟨hmem,?_,h⟩
  simp [hfins]

end SendLog
