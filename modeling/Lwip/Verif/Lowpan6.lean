import Lwip.Core.Lowpan6

/-!
# What 6LoWPAN reassembly passes up

The datagrams of one sender depend on the frames of that sender only. One that arrives in order is
passed up once, and nothing is passed up behind a gap. But the comparison of the offset with what
has arrived is the wrong way round: a frame behind a gap is ignored as a duplicate, and a duplicate
makes `lowpan6_input` give up the datagram as if a frame had been missed.
-/

namespace Lwip.Lowpan6

open List

/-- The datagram is one of a sender. -/
def own (src : List UInt8) (lrh : ReassHelper) : Bool := lrh.senderAddr = src

/-- The frame is one of a sender. -/
def fromSender (src : List UInt8) (input : Bool × List UInt8) : Bool := (frameOf input.2).src = src

variable {src : List UInt8} {size tag : Nat}
  {decompress : List UInt8 → List UInt8 → List UInt8 → Option (List UInt8)}

theorem checkDuplicate_filter (sender : List UInt8) (size tag : Nat) (s : List ReassHelper) :
    (sender ≠ src → (checkDuplicate sender size tag s).2.filter (own src) = s.filter (own src)) ∧
      checkDuplicate src size tag (s.filter (own src)) =
        ((checkDuplicate src size tag s).1,
          (checkDuplicate src size tag s).2.filter (own src)) := by
  induction s with
  | nil => exact ⟨fun _ => rfl, rfl⟩
  | cons lrh next ih => grind [checkDuplicate, own]

theorem addFragment_filter (sender : List UInt8) (size tag offset : Nat) (data : List UInt8)
    (s : List ReassHelper) :
    (sender ≠ src →
      (addFragment sender size tag offset data s).2.filter (own src) = s.filter (own src)) ∧
      addFragment src size tag offset data (s.filter (own src)) =
        ((addFragment src size tag offset data s).1,
          (addFragment src size tag offset data s).2.filter (own src)) := by
  induction s with
  | nil => exact ⟨fun _ => rfl, rfl⟩
  | cons lrh next ih => grind [addFragment, own]

/-- Frames of others leave the datagrams of a sender alone. -/
theorem lowpan6Input_other {malloc : Bool} {p : List UInt8} (different : (frameOf p).src ≠ src)
    (s : List ReassHelper) :
    (lowpan6Input decompress malloc p s).2.filter (own src) = s.filter (own src) := by
  unfold lowpan6Input
  dsimp only
  split
  · rename_i size tag data _
    have kept := (checkDuplicate_filter (frameOf p).src size tag s).1 different
    split
    · exact kept
    · rw [filter_cons_of_neg (by simpa [own] using different), kept]
  · exact (addFragment_filter _ _ _ _ _ s).1 different
  · rfl

/-- Frames of a sender do not depend on the datagrams of others. -/
theorem lowpan6Input_own {malloc : Bool} {p : List UInt8} (mine : (frameOf p).src = src)
    (s : List ReassHelper) : lowpan6Input decompress malloc p (s.filter (own src)) =
      ((lowpan6Input decompress malloc p s).1,
        (lowpan6Input decompress malloc p s).2.filter (own src)) := by
  subst mine
  unfold lowpan6Input
  dsimp only
  split
  · rename_i size tag data _
    rw [(checkDuplicate_filter [] size tag s).2]
    split
    · rfl
    · rw [filter_cons_of_pos (by simp [own])]
  · rw [(addFragment_filter [] _ _ _ _ s).2]
  · rfl

/-- What is passed up from the frames of a sender. -/
def passedUp (decompress : List UInt8 → List UInt8 → List UInt8 → Option (List UInt8))
    (src : List UInt8) : List (Bool × List UInt8) → List ReassHelper → List (List UInt8)
  | [], _ => []
  | (malloc, p) :: more, s =>
    let result := lowpan6Input decompress malloc p s
    (if (frameOf p).src = src then result.1.toList else []) ++ passedUp decompress src more result.2

/-- What is passed up depends on the frames and the datagrams of the sender. -/
theorem passedUp_filter (input : List (Bool × List UInt8)) (s : List ReassHelper) :
    passedUp decompress src input s =
      passedUp decompress src (input.filter (fromSender src)) (s.filter (own src)) := by
  induction input generalizing s with
  | nil => rfl
  | cons first more ih =>
    obtain ⟨malloc, p⟩ := first
    by_cases mine : (frameOf p).src = src
    · rw [filter_cons_of_pos (by simpa [fromSender] using mine), passedUp, passedUp,
        lowpan6Input_own mine, ih]
    · rw [filter_cons_of_neg (by simpa [fromSender] using mine), passedUp, ih,
        lowpan6Input_other mine]
      simp [mine]

/-- Frames deliver the parts of a datagram from a position on, and its first part again. -/
inductive Delivers (dest src : List UInt8) (size tag : Nat) :
    Nat → List UInt8 → List (Bool × List UInt8) → Prop
  | last (malloc : Bool) (pos : Nat) (p data : List UInt8)
      (frame : frameOf p = ⟨dest, src, .fragn size tag pos data⟩) :
      Delivers dest src size tag pos data [(malloc, p)]
  | again (malloc : Bool) (pos : Nat) (p data rest : List UInt8) (more : List (Bool × List UInt8))
      (frame : frameOf p = ⟨dest, src, .frag1 size tag data⟩)
      (delivers : Delivers dest src size tag pos rest more) :
      Delivers dest src size tag pos rest ((malloc, p) :: more)
  | next (malloc : Bool) (pos : Nat) (p data rest : List UInt8) (more : List (Bool × List UInt8))
      (frame : frameOf p = ⟨dest, src, .fragn size tag pos data⟩) (left : 0 < rest.length)
      (delivers : Delivers dest src size tag (pos + data.length) rest more) :
      Delivers dest src size tag pos (data ++ rest) ((malloc, p) :: more)

/-- The parts that are still to come complete the datagram. -/
theorem Delivers.passedUp_eq {dest rest : List UInt8} {pos : Nat}
    {input : List (Bool × List UInt8)} (delivers : Delivers dest src size tag pos rest input)
    (acc : List UInt8) (here : acc.length = pos) (whole : acc.length + rest.length = size) :
    passedUp decompress src input [⟨acc, src, size, tag⟩] =
      (packetOf decompress src dest (acc ++ rest)).toList := by
  induction delivers generalizing acc with
  | last malloc pos p data frame =>
    simp [passedUp, lowpan6Input, frame, addFragment, here, ← whole]
  | again malloc pos p data rest more frame _ ih =>
    have same : lowpan6Input decompress malloc p [⟨acc, src, size, tag⟩] =
        (none, [⟨acc, src, size, tag⟩]) := by
      simp [lowpan6Input, frame, checkDuplicate]
    simp [passedUp, same, ih acc here whole]
  | next malloc pos p data rest more frame left _ ih =>
    rw [length_append] at whole
    have added : lowpan6Input decompress malloc p [⟨acc, src, size, tag⟩] =
        (none, [⟨acc ++ data, src, size, tag⟩]) := by
      simp only [lowpan6Input, frame, addFragment, here, length_append]
      grind
    have rest' := ih (acc ++ data) (by rw [length_append, here]) (by rw [length_append]; omega)
    simp [passedUp, added, rest']

/-- The datagram of a size and a tag has not arrived beyond a position. -/
def UpTo (size tag missing : Nat) (s : List ReassHelper) : Prop :=
  ∀ lrh ∈ s, tag = lrh.datagramTag → size = lrh.datagramSize → lrh.pbuf.length ≤ missing

/-- A part of the datagram that is not the one at a position. -/
def Beside (size tag missing : Nat) : Dispatch → Prop
  | .frag1 size' tag' data => size' = size ∧ tag' = tag ∧ data.length ≤ missing
  | .fragn size' tag' offset data =>
    size' = size ∧ tag' = tag ∧ (offset + data.length ≤ missing ∨ missing < offset)
  | .complete _ => False

instance (size tag missing : Nat) : DecidablePred (Beside size tag missing)
  | .frag1 .. => inferInstanceAs (Decidable (_ ∧ _ ∧ _))
  | .fragn .. => inferInstanceAs (Decidable (_ ∧ _ ∧ (_ ∨ _)))
  | .complete _ => inferInstanceAs (Decidable False)

theorem UpTo.checkDuplicate {missing : Nat} {s : List ReassHelper}
    (upTo : UpTo size tag missing s) (sender : List UInt8) :
    UpTo size tag missing (checkDuplicate sender size tag s).2 := by
  induction s with
  | nil => exact upTo
  | cons lrh next ih => grind [UpTo, Lowpan6.checkDuplicate]

theorem UpTo.addFragment {missing offset : Nat} {data : List UInt8} {s : List ReassHelper}
    (upTo : UpTo size tag missing s) (sender : List UInt8) (short : missing < size)
    (beside : offset + data.length ≤ missing ∨ missing < offset) :
    (addFragment sender size tag offset data s).1 = none ∧
      UpTo size tag missing (addFragment sender size tag offset data s).2 := by
  induction s with
  | nil => exact ⟨rfl, upTo⟩
  | cons lrh next ih => grind [UpTo, Lowpan6.addFragment]

/-- Without the part at a position the datagram does not get beyond it. -/
theorem UpTo.lowpan6Input {missing : Nat} {p : List UInt8} {s : List ReassHelper}
    (upTo : UpTo size tag missing s)
    (decompress : List UInt8 → List UInt8 → List UInt8 → Option (List UInt8)) (malloc : Bool)
    (short : missing < size) (beside : Beside size tag missing (frameOf p).dispatch) :
    (lowpan6Input decompress malloc p s).1 = none ∧
      UpTo size tag missing (lowpan6Input decompress malloc p s).2 := by
  unfold Lowpan6.lowpan6Input
  dsimp only
  split <;> rename_i dispatch <;> rw [dispatch] at beside
  · obtain ⟨rfl, rfl, first⟩ := beside
    have kept := upTo.checkDuplicate (frameOf p).src
    split
    · exact ⟨rfl, kept⟩
    · exact ⟨rfl, forall_mem_cons.2 ⟨fun _ _ => first, kept⟩⟩
  · obtain ⟨rfl, rfl, next⟩ := beside
    have added := upTo.addFragment (frameOf p).src short next
    rw [added.1]
    exact ⟨rfl, added.2⟩
  · exact beside.elim

/-- A datagram whose FRAGN frames arrive once and in order is passed up once, whatever frames of
other senders come in between; nothing is passed up if one of its FRAGN frames is missing. -/
theorem lowpan6_passes_up
    (decompress : List UInt8 → List UInt8 → List UInt8 → Option (List UInt8))
    (dest src first : List UInt8) (size tag : Nat) (s : List ReassHelper)
    (input : List (Bool × List UInt8)) :
    (∀ (p rest : List UInt8) (more : List (Bool × List UInt8)),
      input.filter (fromSender src) = (true, p) :: more →
      frameOf p = ⟨dest, src, .frag1 size tag first⟩ → first.length + rest.length = size →
      Delivers dest src size tag first.length rest more →
      (∀ lrh ∈ s.filter (own src), ¬(tag = lrh.datagramTag ∧ size = lrh.datagramSize)) →
      passedUp decompress src input s = (packetOf decompress src dest (first ++ rest)).toList) ∧
    (∀ missing < size, UpTo size tag missing (s.filter (own src)) →
      (∀ x ∈ input.filter (fromSender src), Beside size tag missing (frameOf x.2).dispatch) →
      passedUp decompress src input s = []) := by
  rw [passedUp_filter]
  have senders : ∀ lrh ∈ s.filter (own src), lrh.senderAddr = src := fun lrh member => by
    simpa [own] using (mem_filter.1 member).2
  generalize s.filter (own src) = own' at senders
  generalize input.filter (fromSender src) = frames
  constructor
  · rintro p rest more rfl frame whole delivers fresh
    have checked : checkDuplicate src size tag own' = (false, []) := by
      clear * - senders fresh
      induction own' with
      | nil => rfl
      | cons lrh next ih => grind [checkDuplicate]
    have started : lowpan6Input decompress true p own' = (none, [⟨first, src, size, tag⟩]) := by
      simp [lowpan6Input, frame, checked]
    simp [passedUp, started, delivers.passedUp_eq first rfl whole]
  · intro missing short upTo beside
    clear senders
    induction frames generalizing own' with
    | nil => rfl
    | cons x more ih =>
      have step := upTo.lowpan6Input decompress x.1 short (beside x mem_cons_self)
      have rest := ih _ step.2 fun y member => beside y (mem_cons_of_mem x member)
      simp [passedUp, step.1, rest]

/-- A frame with short addresses of the sender `[0, 3]`. -/
def shortFrame (payload : List UInt8) : Bool × List UInt8 :=
  (true, [0x61, 0x88, 0, 1, 0, 2, 0, 1, 0, 3, 0] ++ payload)

/-- A datagram of 17 bytes in three frames. -/
def threeFrames : List (Bool × List UInt8) :=
  [shortFrame [0xc0, 17, 0, 7, 0x41, 1, 2, 3, 4, 5, 6, 7],
    shortFrame [0xe0, 17, 0, 7, 1, 8, 9, 10, 11, 12, 13, 14, 15],
    shortFrame [0xe0, 17, 0, 7, 2, 16]]

/-- The three frames are passed up, but not the first and the last one alone. -/
theorem lowpan6_passes_up_threeFrames :
    passedUp (fun _ _ _ => none) [0, 3] threeFrames [] =
        [[1, 2, 3, 4, 5, 6, 7, 8, 9, 10, 11, 12, 13, 14, 15, 16]] ∧
      passedUp (fun _ _ _ => none) [0, 3] (threeFrames.take 1 ++ threeFrames.drop 2) [] = [] :=
  ⟨(lowpan6_passes_up _ [0, 2] [0, 3] [0x41, 1, 2, 3, 4, 5, 6, 7] 17 7 [] threeFrames).1 _
      ([8, 9, 10, 11, 12, 13, 14, 15] ++ [16]) _ rfl rfl rfl
      (.next _ _ _ _ _ _ rfl (by decide) (.last _ _ _ _ rfl)) (by simp),
    (lowpan6_passes_up _ [0, 2] [0, 3] [] 17 7 [] _).2 8 (by decide) (by simp [UpTo])
      (by decide +kernel)⟩

/-- The same datagram is not passed up if its second frame arrives twice. -/
theorem lowpan6_gives_up_duplicate :
    passedUp (fun _ _ _ => none) [0, 3] (threeFrames.take 2 ++ threeFrames.drop 1) [] = [] := by
  decide +kernel

end Lwip.Lowpan6
