/-
Requests that are longer than the server accepts. `CallRaw` narrows the size of a request to an `int32_t`, the server
checks what is left of it; a size beyond `2 ^ 32` comes back as a small one, and then the first part of the payload is
taken for the request and the rest of it for further frames. Which handlers the server calls on such a stream, and
exactly when it calls none.
-/
import MiniHadoop.Ipc.Conversation

namespace MiniHadoop.Ipc

open Text Wire Framing Reading InputBuffer OutputBuffer Connection

variable {σ : Type} {handlers : Handlers σ} {send : Nat → SendOutcome}

/-! ## The handlers that are called -/

/-- The handler calls that `HandleConnection` makes, with what each handler gets to read. -/
def invoked (handlers : Handlers σ) (send : Nat → SendOutcome) (n : Nat) (s : σ) (input : Bytes) : List Call :=
  match _h : readFull 4 input with
  | none => []
  | some (raw, rest) =>
    if acceptLength (beValue raw) = false then []
    else match readVector (beValue raw) rest with
      | none => []
      | some msg =>
        called handlers msg ++
          match dispatch handlers s msg with
          | .error _ => []
          | .ok (s', _) => if send n = .sent then invoked handlers send (n + 1) s' (rest.drop (beValue raw)) else []
termination_by input.length
decreasing_by exact drop_readFull_lt _h _

/-- A message is read as the call of which it is made. -/
theorem called_message {call : Call} (h : call.message.length < maxSize) :
    called handlers ⟨call.message, h⟩ = if (handlers call.methodId).isSome then [call] else [] := by
  rw [called, Call.readInt_message h]
  dsimp only
  rw [Call.rest_req h]

/-- Every message that the server accepts is that of a call. -/
theorem exists_call {msg : Buffer} (h : acceptLength msg.1.length = true) : ∃ call : Call, call.message = msg.1 := by
  have hfour : (msg.1.take 4).length = 4 := List.length_take_of_le (acceptLength_eq_true.1 h).1
  have hvalue : beValue (msg.1.take 4) < 2 ^ 32 := by
    have hlt := beValue_lt (msg.1.take 4)
    rw [hfour] at hlt
    exact hlt
  refine ⟨⟨(UInt32.ofNat (beValue (msg.1.take 4))).toInt32, msg.1.drop 4⟩, ?_⟩
  have hwrite : writeInt (UInt32.ofNat (beValue (msg.1.take 4))).toInt32 = msg.1.take 4 := by
    have hall := beBytes_beValue (msg.1.take 4)
    rw [hfour] at hall
    rw [writeInt, UInt32.toUInt32_toInt32, UInt32.toNat_ofNat_of_lt' hvalue, hall]
  rw [Call.message, hwrite, List.take_append_drop]

/-- A message that names no method of the server does nothing. -/
theorem dispatch_of_not_called {msg : Buffer} (haccept : acceptLength msg.1.length = true)
    (h : called handlers msg = []) (s : σ) : dispatch handlers s msg = .ok (s, unknownMethod) := by
  obtain ⟨call, hcall⟩ := exists_call haccept
  obtain ⟨m, hm⟩ := msg
  subst hcall
  rw [called_message hm] at h
  have hnone : handlers call.methodId = none := by
    cases hh : handlers call.methodId with
    | none => rfl
    | some handler => rw [hh] at h; cases h
  exact dispatch_unknown (Call.readInt_message hm) hnone

theorem invoked_eq (n : Nat) (s : σ) (input : Bytes) : invoked handlers send n s input =
    match readFull 4 input with
    | none => []
    | some (raw, rest) =>
      if acceptLength (beValue raw) = false then []
      else match readVector (beValue raw) rest with
        | none => []
        | some msg =>
          called handlers msg ++
            match dispatch handlers s msg with
            | .error _ => []
            | .ok (s', _) => if send n = .sent then invoked handlers send (n + 1) s' (rest.drop (beValue raw)) else [] := by
  rw [invoked]
  split
  · rename_i h
    rw [h]
  · rename_i raw rest h
    rw [h]

/-- No handler is called exactly when no message that is read names one. -/
theorem invoked_eq_nil_iff (n : Nat) (s : σ) (input : Bytes) :
    invoked handlers send n s input = [] ↔ ∀ msg ∈ messages send n input, called handlers msg = [] := by
  rw [invoked_eq, messages_eq]
  cases hread : readFull 4 input with
  | none => simp
  | some read =>
    obtain ⟨raw, rest⟩ := read
    dsimp only
    by_cases haccept : acceptLength (beValue raw) = false
    · simp [haccept]
    · rw [if_neg haccept, if_neg haccept]
      cases hmsg : readVector (beValue raw) rest with
      | none => simp
      | some msg =>
        rw [List.forall_mem_cons]
        by_cases hcalled : called handlers msg = []
        · have hlen : acceptLength msg.1.length = true := by
            rw [length_readVector hmsg]
            simpa using haccept
          simp only [hcalled, dispatch_of_not_called hlen hcalled s, List.nil_append, true_and]
          split
          · have hlt := drop_readFull_lt hread (beValue raw)
            exact invoked_eq_nil_iff (n + 1) s (rest.drop (beValue raw))
          · simp
        · simp [hcalled]
termination_by input.length
decreasing_by exact hlt

/-! ## The request as the server reads it -/

/-- The size of a request that the server reads. -/
def Call.wireSize (c : Call) : Nat := (4 + c.payload.length) % 2 ^ 32

/-- The call that the server reads: the payload up to the size. -/
def Call.truncated (c : Call) : Call := ⟨c.methodId, c.payload.take (c.wireSize - 4)⟩

/-- The bytes of the payload behind it, which the server takes for further frames. -/
def Call.leftover (c : Call) : Bytes := c.payload.drop (c.wireSize - 4)

variable {c : Call}

theorem readFull_request : readFull 4 c.request = some (beBytes 4 c.wireSize, c.message) := by
  have hsize : (Int32.ofNat c.message.length).toUInt32.toNat = c.wireSize := by
    rw [c.length_message]
    rfl
  rw [Call.request, sized, writeInt, hsize]
  exact readFull_append (length_beBytes 4 _) _

theorem beValue_wireSize : beValue (beBytes 4 c.wireSize) = c.wireSize := by
  have hlt : c.wireSize < 256 ^ 4 := Nat.mod_lt _ (by decide)
  exact beValue_of_fits hlt

/-- When the size that is left is an accepted one, the server reads the truncated call. -/
theorem readVector_request (h : acceptLength c.wireSize = true) :
    ∃ hlen, readVector c.wireSize c.message = some ⟨c.truncated.message, hlen⟩ := by
  obtain ⟨hmin, hmost⟩ := acceptLength_eq_true.1 h
  have htake : c.message.take c.wireSize = c.truncated.message := by
    rw [Call.message, List.take_append, List.take_of_length_le (by rw [length_writeInt]; omega), length_writeInt]
    rfl
  have hle : c.wireSize ≤ c.message.length := by
    rw [c.length_message]
    exact Nat.mod_le _ _
  have hmax : c.wireSize < maxSize := lt_maxSize (by omega)
  refine ⟨htake ▸ lt_of_le_of_lt (List.length_take_le _ _) hmax, ?_⟩
  rw [readVector, dif_pos ⟨hmax, hle⟩]
  simp only [htake]

theorem drop_request (h : acceptLength c.wireSize = true) : c.message.drop c.wireSize = c.leftover := by
  have hmin := (acceptLength_eq_true.1 h).1
  rw [Call.message, List.drop_append, List.drop_of_length_le (by rw [length_writeInt]; omega), length_writeInt]
  rfl

/-- The messages that the server reads from a request: none, or the truncated call and those in the rest of the
payload. -/
theorem messages_request (send : Nat → SendOutcome) (h : acceptLength c.wireSize = true) (n : Nat) :
    ∃ hlen, messages send n c.request =
      ⟨c.truncated.message, hlen⟩ :: if send n = .sent then messages send (n + 1) c.leftover else [] := by
  obtain ⟨hlen, hread⟩ := readVector_request h
  refine ⟨hlen, ?_⟩
  rw [messages_eq, readFull_request]
  dsimp only
  rw [beValue_wireSize, if_neg (by rw [h]; decide), hread, drop_request h]

theorem messages_refused (h : acceptLength c.wireSize = false) (n : Nat) : messages send n c.request = [] := by
  rw [messages_eq, readFull_request]
  dsimp only
  rw [beValue_wireSize, if_pos h]

/-- A request that is too long, but not longer than its size can say, is not dispatched. -/
theorem oversized_of_lt (h : 64 * 1024 * 1024 < 4 + c.payload.length) (hlt : 4 + c.payload.length < 2 ^ 32) (s : σ) :
    invoked handlers send 0 s c.request = [] := by
  have hrefused : acceptLength c.wireSize = false := by
    rw [Call.wireSize, Nat.mod_eq_of_lt hlt, Bool.eq_false_iff, ne_eq, acceptLength_eq_true]
    omega
  rw [invoked_eq_nil_iff, messages_refused hrefused]
  exact fun msg hmsg => absurd hmsg List.not_mem_nil

/-- No handler is called on a request exactly when its size modulo `2 ^ 32` is refused, or its method is unknown and the
rest of the payload, if it is read at all, has no frame that names a method. -/
theorem not_dispatched_iff (handlers : Handlers σ) (send : Nat → SendOutcome) (s : σ) (c : Call) :
    invoked handlers send 0 s c.request = [] ↔
      acceptLength c.wireSize = false ∨ (handlers c.methodId = none ∧
        (send 0 = .sent → ∀ msg ∈ messages send 1 c.leftover, called handlers msg = [])) := by
  rw [invoked_eq_nil_iff]
  cases haccept : acceptLength c.wireSize with
  | false =>
    rw [messages_refused haccept]
    exact ⟨fun _ => .inl rfl, fun _ msg hmsg => absurd hmsg List.not_mem_nil⟩
  | true =>
    obtain ⟨hlen, hmessages⟩ := messages_request send haccept 0
    have hfirst : called handlers ⟨c.truncated.message, hlen⟩ = [] ↔ handlers c.methodId = none := by
      rw [called_message]
      cases hh : handlers c.methodId with
      | none => simp [Call.truncated, hh]
      | some handler => simp [Call.truncated, hh]
    rw [hmessages, List.forall_mem_cons, hfirst, or_iff_right (by decide)]
    split
    · rename_i hsent
      simp [hsent]
    · rename_i hsent
      simp [hsent]

/-- A payload of `2 ^ 32` bytes comes back as a size of four, and its method is called. -/
theorem oversized_dispatched : ¬ ∀ (handlers : Handlers Unit) (send : Nat → SendOutcome) (s : Unit) (c : Call),
    64 * 1024 * 1024 < 4 + c.payload.length → invoked handlers send 0 s c.request = [] := by
  intro h
  obtain ⟨zeros, hlen⟩ : ∃ zeros : Bytes, zeros.length = 2 ^ 32 := ⟨List.replicate (2 ^ 32) 0, List.length_replicate⟩
  have hsize : (Call.mk 1 zeros).wireSize = 4 := by
    rw [Call.wireSize, hlen]
    decide
  have haccept : acceptLength (Call.mk 1 zeros).wireSize = true := by
    rw [hsize]
    decide
  obtain ⟨hbound, hmessages⟩ := messages_request (fun _ => .sent) haccept 0
  have hnone := h echo (fun _ => .sent) () (Call.mk 1 zeros) (by rw [hlen]; decide)
  rw [invoked_eq_nil_iff, hmessages] at hnone
  have hcalled := hnone _ (List.mem_cons_self ..)
  rw [called_message] at hcalled
  exact List.cons_ne_nil _ _ hcalled

end MiniHadoop.Ipc
