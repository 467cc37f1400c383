/-
Messages on a stream, each after its length in four bytes. A receiver gets the stream in pieces of any size, none
longer than what it asked for; it is inside a length or inside a body, and what it has taken so far is always a
proper beginning of the frame that is under way.
-/
import MiniHadoop.Base.Wire

namespace Framing

open Text Wire

/-- A message with its length before it. -/
def frame (message : Bytes) : Bytes := beBytes 4 message.length ++ message

@[simp] theorem length_frame (message : Bytes) : (frame message).length = 4 + message.length := by
  rw [frame, List.length_append, length_beBytes]

theorem frame_ne_nil (message : Bytes) : frame message ≠ [] := by
  intro h
  have hlen := congrArg List.length h
  rw [length_frame, List.length_nil] at hlen
  omega

/-- A piece of what is not sent yet goes behind what is on its way: the order stays, and less is left to do when a byte
counts once to be sent and once to be received. -/
theorem send_piece {sent unsent : Bytes} {n : Nat} (hpos : 0 < n) (hle : n ≤ unsent.length) :
    (sent ++ unsent.take n) ++ unsent.drop n = sent ++ unsent ∧
      (sent ++ unsent.take n).length + 2 * (unsent.drop n).length < sent.length + 2 * unsent.length := by
  constructor
  · rw [List.append_assoc, List.take_append_drop]
  · simp only [List.length_append, List.length_take, List.length_drop]
    omega

/-- How much of a frame has arrived: a part of the length, or the length and a part of the body. -/
inductive Incoming where
  | length (got : Bytes)
  | body (len : Nat) (got : Bytes)
  deriving DecidableEq, Repr

/-- What becomes of a piece: more is to come, the length is one that is not accepted, or the message is there. -/
inductive Received where
  | more (next : Incoming)
  | refused
  | done (message : Bytes)
  deriving DecidableEq, Repr

namespace Incoming

/-- The number of bytes the receiver asks for. -/
def need : Incoming → Nat
  | .length got => 4 - got.length
  | .body len got => len - got.length

/-- The next piece. A body of length zero is not waited for. -/
def receive (accept : Nat → Bool) : Incoming → Bytes → Received
  | .length got, piece =>
    let got := got ++ piece
    if got.length < 4 then .more (.length got)
    else if accept (beValue got) = false then .refused
    else if beValue got = 0 then .done []
    else .more (.body (beValue got) [])
  | .body len got, piece =>
    let got := got ++ piece
    if got.length < len then .more (.body len got) else .done got

/-- The bytes of the frame that have arrived. -/
def consumed : Incoming → Bytes
  | .length got => got
  | .body len got => beBytes 4 len ++ got

/-- The receiver waits for more. -/
def Waits : Incoming → Prop
  | .length got => got.length < 4
  | .body len got => got.length < len ∧ len < 256 ^ 4

/-- A frame is never complete while the receiver waits. -/
theorem Waits.rest_ne_nil {i : Incoming} (h : i.Waits) {message rest : Bytes} (hlen : message.length < 256 ^ 4)
    (hi : i.consumed ++ rest = frame message) : rest ≠ [] := by
  intro hrest
  rw [hrest, List.append_nil] at hi
  cases i with
  | length got =>
    have hgot : got.length = 4 + message.length := by rw [← length_frame, ← hi]; rfl
    have hwait : got.length < 4 := h
    omega
  | body len got =>
    obtain ⟨hlen', hgot⟩ := List.append_inj hi (by rw [length_beBytes, length_beBytes])
    have hvalue := congrArg beValue hlen'
    rw [beValue_of_fits h.2, beValue_of_fits hlen] at hvalue
    have hshort := h.1
    rw [hgot, hvalue] at hshort
    exact lt_irrefl _ hshort

theorem Waits.need_pos {i : Incoming} (h : i.Waits) : 0 < i.need := by
  cases i with
  | length got => exact Nat.sub_pos_of_lt h
  | body len got => exact Nat.sub_pos_of_lt h.1

/-- The piece that completes the length. -/
theorem receive_length {accept : Nat → Bool} {got piece : Bytes} {n : Nat} (hn : n < 256 ^ 4)
    (haccept : accept n = true) (h : got ++ piece = beBytes 4 n) :
    (Incoming.length got).receive accept piece = if n = 0 then .done [] else .more (.body n []) := by
  have hvalue : beValue (beBytes 4 n) = n := beValue_of_fits hn
  have hfour : ¬ (beBytes 4 n).length < 4 := by rw [length_beBytes]; omega
  simp only [receive, h, hvalue, hfour, haccept, if_false, Bool.true_eq_false]

/-- A piece of a frame of accepted length is added to what has arrived, or it completes the message. -/
theorem Waits.receive {i : Incoming} (h : i.Waits) (accept : Nat → Bool) {message piece rest : Bytes}
    (hlen : message.length < 256 ^ 4) (haccept : accept message.length = true) (hneed : piece.length ≤ i.need)
    (hi : i.consumed ++ (piece ++ rest) = frame message) :
    (∃ i', i.receive accept piece = .more i' ∧ i'.Waits ∧ i'.consumed = i.consumed ++ piece) ∨
      (i.receive accept piece = .done message ∧ rest = []) := by
  rw [← List.append_assoc] at hi
  cases i with
  | length got =>
    have hwait : got.length < 4 := h
    have hgot : (got ++ piece).length ≤ 4 := by
      rw [List.length_append]
      simp only [need] at hneed
      omega
    by_cases hmore : (got ++ piece).length < 4
    · exact .inl ⟨.length (got ++ piece), by simp only [Incoming.receive, hmore, if_true], hmore, rfl⟩
    · -- the four bytes of the length are there
      have hi' : (got ++ piece) ++ rest = beBytes 4 message.length ++ message := hi
      obtain ⟨hfour, hrest⟩ := List.append_inj hi' (by rw [length_beBytes]; omega)
      rw [receive_length hlen haccept hfour]
      by_cases hzero : message.length = 0
      · have hnil : message = [] := List.length_eq_zero_iff.1 hzero
        exact .inr ⟨by rw [if_pos hzero, hnil], by rw [hrest, hnil]⟩
      · refine .inl ⟨.body message.length [], by rw [if_neg hzero], ⟨Nat.pos_of_ne_zero hzero, hlen⟩, ?_⟩
        show beBytes 4 message.length ++ [] = got ++ piece
        rw [List.append_nil, hfour]
  | body len got =>
    rw [consumed, List.append_assoc, List.append_assoc] at hi
    obtain ⟨hlen', hbody⟩ := List.append_inj hi (by rw [length_beBytes, length_beBytes])
    have heq := congrArg beValue hlen'
    rw [beValue_of_fits h.2, beValue_of_fits hlen] at heq
    have hgot : got.length + piece.length ≤ message.length := by
      have hwait := h.1
      simp only [need] at hneed
      omega
    by_cases hmore : (got ++ piece).length < len
    · exact .inl ⟨.body len (got ++ piece), by simp only [Incoming.receive, hmore, if_true], ⟨hmore, h.2⟩,
        by rw [consumed, consumed, List.append_assoc]⟩
    · have hall := congrArg List.length hbody
      simp only [List.length_append] at hall hmore
      have hrest : rest = [] := List.length_eq_zero_iff.1 (by omega)
      rw [hrest, List.append_nil] at hbody
      have hfull : ¬ message.length < len := by omega
      exact .inr ⟨by simp only [Incoming.receive, hbody, hfull, if_false], hrest⟩

/-- The receiver takes the first `n` of the bytes that are on their way. -/
theorem Waits.receive_take {i : Incoming} (h : i.Waits) (accept : Nat → Bool) {message sent unsent : Bytes} {n : Nat}
    (hlen : message.length < 256 ^ 4) (haccept : accept message.length = true) (hneed : n ≤ i.need)
    (hi : i.consumed ++ (sent ++ unsent) = frame message) :
    (∃ i', i.receive accept (sent.take n) = .more i' ∧ i'.Waits ∧
        i'.consumed ++ (sent.drop n ++ unsent) = frame message) ∨
      (i.receive accept (sent.take n) = .done message ∧ sent.drop n = [] ∧ unsent = []) := by
  have hpiece : i.consumed ++ (sent.take n ++ (sent.drop n ++ unsent)) = frame message := by
    rw [← List.append_assoc (sent.take n), List.take_append_drop]
    exact hi
  have htake : (sent.take n).length ≤ i.need := by
    rw [List.length_take]
    omega
  rcases h.receive accept hlen haccept htake hpiece with ⟨i', hmore, hwaits, hconsumed⟩ | ⟨hdone, hrest⟩
  · refine .inl ⟨i', hmore, hwaits, ?_⟩
    rw [hconsumed, List.append_assoc]
    exact hpiece
  · exact .inr ⟨hdone, List.append_eq_nil_iff.1 hrest⟩

end Incoming

end Framing
