/-
The threads of a DataNode's server. A store truncates the file of its block and then writes it piece by piece; a read
takes the size of the file and then reads that many bytes; and what other threads do comes between these steps. When no
block is written twice, a read is as good as atomic: it answers with what was in the file when it was opened. But that
may be a beginning of the block, which the client takes for all of it.
-/
import Mathlib.Data.List.TakeDrop
import MiniHadoop.Base.Counting
import MiniHadoop.Base.SharedFile
import MiniHadoop.Ndfs.BlockStore

namespace MiniHadoop.Ndfs

open Text Wire Runs
open SharedFile (pwrite pwrite_length)

/-! ## Threads -/

/-- How far a connection has been handled: the request to write a block has arrived, the file is open and the first
`written` bytes are in it, or it is closed and the store acknowledged; the request to read a block has arrived, the file
is open and some of `size` bytes have been read, or the answer has been sent; or a write has broken off. -/
inductive Handling where
  | store (id : Int64) (payload : Buffer)
  | storing (id : Int64) (payload : Buffer) (written : Fin (payload.1.length + 1))
  | acked (id : Int64) (payload : Buffer)
  | load (id : Int64)
  | loading (id : Int64) (size : Nat) (got : Bytes)
  | answered (id : Int64) (answer : Bytes)
  | broken (id : Int64) (payload : Buffer) (n : Fin (17 + payload.1.length))

/-- What a thread does next with its file. -/
inductive Turn where
  | openFile
  | move (n : Nat)
  | closeFile
  deriving DecidableEq

/-- The block that a connection writes. -/
def Connection.target : Connection → Option Int64
  | .write id _ => some id
  | .cutWrite .. => none
  | .read _ => none

namespace Handling

/-- A request has arrived, or has broken off. -/
def start : Connection → Handling
  | .write id payload => .store id payload
  | .cutWrite id payload n => .broken id payload n
  | .read id => .load id

def connection : Handling → Connection
  | .store id payload => .write id payload
  | .storing id payload _ => .write id payload
  | .acked id payload => .write id payload
  | .load id => .read id
  | .loading id _ _ => .read id
  | .answered id _ => .read id
  | .broken id payload n => .cutWrite id payload n

/-- What a thread that writes has put into its file. -/
def file : Handling → Option Bytes
  | .storing _ payload written => some (payload.1.take written)
  | .acked _ payload => some payload.1
  | _ => none

def finished : Handling → Bool
  | .acked .. => true
  | .answered .. => true
  | .broken .. => true
  | _ => false

/-- Some more bytes of a payload have been written. -/
def advance {len : Nat} (written : Fin (len + 1)) (n : Nat) : Fin (len + 1) := ⟨min (written + n) len, by omega⟩

/-- A turn of a thread, for the files of all blocks. The write goes on until all is written; the read ends at the size that
the file had or where the file ends now, and the rest of the vector stays zero. -/
def turn (files : Int64 → Option Bytes) : Handling → Turn → (Int64 → Option Bytes) × Handling
  | .store id payload, .openFile => (Function.update files id (some []), .storing id payload 0)
  | .storing id payload written, .move n =>
    (Function.update files id ((files id).map fun content => pwrite content written ((payload.1.drop written).take n)),
      .storing id payload (advance written n))
  | .storing id payload written, .closeFile =>
    (files, if written.1 < payload.1.length then .storing id payload written else .acked id payload)
  | .load id, .openFile =>
    match files id with
    | none => (files, .answered id [])
    | some content => (files, .loading id content.length [])
  | .loading id size got, .move n =>
    (files, .loading id size (got ++ (((files id).getD []).drop got.length).take (min n (size - got.length))))
  | .loading id size got, .closeFile =>
    (files, if got.length < size ∧ got.length < ((files id).getD []).length then .loading id size got
      else .answered id (beBytes 8 size ++ got.takeD size 0))
  | h, _ => (files, h)

variable {files : Int64 → Option Bytes} {h : Handling} {t : Turn} {id : Int64}

theorem connection_start (c : Connection) : (start c).connection = c := by
  cases c <;> rfl

theorem file_start (c : Connection) : (start c).file = none := by
  cases c <;> rfl

theorem connection_turn (files : Int64 → Option Bytes) (h : Handling) (t : Turn) :
    (h.turn files t).2.connection = h.connection := by
  cases h with
  | storing id payload written =>
    cases t with
    | closeFile =>
      unfold turn
      dsimp only
      split <;> rfl
    | _ => rfl
  | load id =>
    cases t with
    | openFile =>
      unfold turn
      dsimp only
      split <;> rfl
    | _ => rfl
  | loading id size got =>
    cases t with
    | closeFile =>
      unfold turn
      dsimp only
      split <;> rfl
    | _ => rfl
  | _ => cases t <;> rfl

/-- The next piece of a payload goes behind what has been written. -/
theorem pwrite_take (payload : Bytes) (written : Fin (payload.length + 1)) (n : Nat) :
    pwrite (payload.take written) written ((payload.drop written).take n) = payload.take (advance written n) := by
  have hlen : (payload.take written).length = written.1 := by
    rw [List.length_take]
    omega
  have hpiece := pwrite_length (payload.take written) ((payload.drop written).take n)
  rw [hlen] at hpiece
  rw [hpiece, ← List.take_add]
  show payload.take (written + n) = payload.take (min (written + n) payload.length)
  rw [List.take_eq_take_iff]
  omega

/-- A thread writes into no file but that of its block. -/
theorem turn_other (hne : h.connection.target ≠ some id) : (h.turn files t).1 id = files id := by
  have hupdate : ∀ {id' : Int64} (v : Option Bytes), some id' ≠ some id → Function.update files id' v id = files id :=
    fun v hid => Function.update_of_ne (fun heq => hid (by rw [heq])) ..
  cases h with
  | store id' payload => cases t <;> first | rfl | exact hupdate _ hne
  | storing id' payload written => cases t <;> first | rfl | exact hupdate _ hne
  | load id' =>
    cases t with
    | openFile =>
      unfold turn
      dsimp only
      split <;> rfl
    | _ => rfl
  | _ => cases t <;> rfl

/-- A thread whose file has what it has written has written what its file has after its turn. -/
theorem turn_own (htarget : h.connection.target = some id) (hfile : files id = h.file) :
    (h.turn files t).1 id = (h.turn files t).2.file := by
  cases h with
  | store id' payload =>
    cases htarget
    cases t with
    | openFile => exact Function.update_self ..
    | move n => exact hfile
    | closeFile => exact hfile
  | storing id' payload written =>
    cases htarget
    cases t with
    | openFile => exact hfile
    | move n =>
      show Function.update files id _ id = some _
      rw [Function.update_self, hfile]
      exact congrArg some (pwrite_take payload.1 written n)
    | closeFile =>
      unfold turn
      dsimp only
      split
      · exact hfile
      · rename_i hall
        refine hfile.trans (congrArg some (List.take_of_length_le ?_))
        exact Nat.le_of_not_lt hall
  | acked id' payload =>
    cases htarget
    cases t <;> exact hfile
  | load id' => cases htarget
  | loading id' size got => cases htarget
  | answered id' answer => cases htarget
  | broken id' payload n => cases htarget

/-- So its file only grows. -/
theorem turn_grows (htarget : h.connection.target = some id) (hfile : files id = h.file) {content : Bytes}
    (hcontent : files id = some content) : ∃ content', (h.turn files t).1 id = some content' ∧ content <+: content' := by
  have hown := @turn_own files h t id htarget hfile
  rw [hfile] at hcontent
  cases h with
  | store id' payload => cases hcontent
  | storing id' payload written =>
    obtain rfl : payload.1.take written = content := Option.some.inj hcontent
    cases t with
    | openFile => exact ⟨_, hown, List.prefix_refl _⟩
    | move n =>
      refine ⟨_, hown, ?_⟩
      show payload.1.take written <+: payload.1.take (advance written n)
      refine List.take_prefix_take_left ?_
      show written.1 ≤ min (written + n) payload.1.length
      omega
    | closeFile =>
      refine ⟨payload.1.take written, ?_, List.prefix_refl _⟩
      exact hfile
  | acked id' payload =>
    obtain rfl : payload.1 = content := Option.some.inj hcontent
    cases t <;> exact ⟨_, hown, List.prefix_refl _⟩
  | load id' => cases htarget
  | loading id' size got => cases htarget
  | answered id' answer => cases htarget
  | broken id' payload n => cases htarget

/-! ## Reads -/

/-- The answer to a read that has found this file. -/
def reply : Option Bytes → Bytes
  | none => []
  | some content => beBytes 8 content.length ++ content

/-- A read has found this file when it opened it: it has a beginning of it, and the file has not lost any of it. -/
def Found (found : Option Bytes) (files : Int64 → Option Bytes) : Handling → Prop
  | .loading id size got => ∃ content, found = some content ∧ size = content.length ∧ got <+: content ∧
      ∃ content', files id = some content' ∧ content <+: content'
  | .answered _ answer => answer = reply found
  | _ => False

theorem found_open (files : Int64 → Option Bytes) (id : Int64) :
    Found (files id) ((Handling.load id).turn files .openFile).1 ((Handling.load id).turn files .openFile).2 := by
  unfold turn
  dsimp only
  cases hfile : files id with
  | none => rfl
  | some content => exact ⟨content, rfl, rfl, List.nil_prefix, content, hfile, List.prefix_refl _⟩

/-- The turns of the read itself keep that. -/
theorem Found.turn {found : Option Bytes} (hfound : Found found files h) (t : Turn) :
    Found found (h.turn files t).1 (h.turn files t).2 := by
  cases h with
  | loading id size got =>
    obtain ⟨content, rfl, rfl, hgot, content', hfile, hbegin⟩ := hfound
    cases t with
    | openFile => exact ⟨content, rfl, rfl, hgot, content', hfile, hbegin⟩
    | move n =>
      refine ⟨content, rfl, rfl, ?_, content', hfile, hbegin⟩
      obtain ⟨more, rfl⟩ := hgot
      obtain ⟨rest, rfl⟩ := hbegin
      rw [hfile]
      show got ++ ((got ++ more ++ rest).drop got.length).take (min n ((got ++ more).length - got.length)) <+: got ++ more
      rw [List.append_assoc, List.drop_left, List.length_append, Nat.add_sub_cancel_left]
      refine (List.prefix_append_right_inj got).2 ?_
      rw [List.take_append_of_le_length (Nat.min_le_right _ _)]
      exact List.take_prefix _ _
    | closeFile =>
      unfold Handling.turn
      dsimp only
      split
      · exact ⟨content, rfl, rfl, hgot, content', hfile, hbegin⟩
      · -- the file still has all of it, so all of it has been read
        rename_i hdone
        have hle := hbegin.length_le
        rw [hfile] at hdone
        have hall : got.length = content.length := by
          have hgotle := hgot.length_le
          have hnot : ¬ (got.length < content.length ∧ got.length < content'.length) := hdone
          omega
        obtain rfl := hgot.eq_of_length hall
        show beBytes 8 got.length ++ got.takeD got.length 0 = beBytes 8 got.length ++ got
        rw [List.takeD_eq_take 0 le_rfl, List.take_length]
  | answered id answer => cases t <;> exact hfound
  | _ => cases hfound

/-- Other threads may make files grow. -/
theorem Found.grow {found : Option Bytes} (hfound : Found found files h) {files' : Int64 → Option Bytes}
    (hgrow : ∀ id content, files id = some content → ∃ content', files' id = some content' ∧ content <+: content') :
    Found found files' h := by
  cases h with
  | loading id size got =>
    obtain ⟨content, hcontent, hsize, hgot, content', hfile, hbegin⟩ := hfound
    obtain ⟨content'', hfile', hbegin'⟩ := hgrow id content' hfile
    exact ⟨content, hcontent, hsize, hgot, content'', hfile', hbegin.trans hbegin'⟩
  | answered id answer => exact hfound
  | _ => cases hfound

end Handling

/-! ## The server -/

/-- The files of the blocks, and the connections that have been accepted. -/
structure BlockServer where
  files : Int64 → Option Bytes := fun _ => none
  threads : List Handling := []

/-- A connection is accepted and its request arrives, or a thread has a turn. -/
inductive ServerEvent where
  | accept (c : Connection)
  | turn (k : Nat) (t : Turn)

namespace BlockServer

def step (s : BlockServer) : ServerEvent → BlockServer
  | .accept c => { s with threads := s.threads ++ [.start c] }
  | .turn k t =>
    match s.threads[k]? with
    | none => s
    | some h => { files := (h.turn s.files t).1, threads := s.threads.set k (h.turn s.files t).2 }

end BlockServer

/-- The block that is written by an accepted connection. -/
def ServerEvent.writes : ServerEvent → Option Int64
  | .accept c => c.target
  | .turn .. => none

/-- Each thread that writes has the file of its block for itself, and no other file is there. -/
structure Apart (targets : List Int64) (s : BlockServer) : Prop where
  written : s.threads.filterMap (·.connection.target) = targets
  file : ∀ (j : Nat) h, s.threads[j]? = some h → ∀ id, h.connection.target = some id → s.files id = h.file
  nothing : ∀ id ∉ targets, s.files id = none

namespace Apart

variable {targets : List Int64} {s : BlockServer}

theorem accept (h : Apart targets s) (c : Connection) (hnew : ∀ id ∈ targets, c.target ≠ some id) :
    Apart (targets ++ c.target.toList) (s.step (.accept c)) := by
  have hstart : (Handling.start c).connection.target = c.target := by rw [Handling.connection_start]
  refine ⟨?_, fun j a hj id hid => ?_, fun id hid => h.nothing id fun hmem => hid (List.mem_append_left _ hmem)⟩
  · show (s.threads ++ [Handling.start c]).filterMap _ = _
    rw [List.filterMap_append, h.written]
    cases htarget : c.target with
    | none => simp [hstart, htarget]
    | some id => simp [hstart, htarget]
  · show s.files id = a.file
    rcases Counting.place_snoc hj with hj | rfl
    · exact h.file j a hj id hid
    · rw [hstart] at hid
      rw [Handling.file_start]
      exact h.nothing id fun hmem => hnew id hmem hid

/-- The threads that have not their turn keep their files, and files only grow. -/
theorem turn (h : Apart targets s) (hnodup : targets.Nodup) {k : Nat} {a : Handling} (hk : s.threads[k]? = some a)
    (t : Turn) :
    Apart targets { files := (a.turn s.files t).1, threads := s.threads.set k (a.turn s.files t).2 } ∧
      ∀ id content, s.files id = some content →
        ∃ content', (a.turn s.files t).1 id = some content' ∧ content <+: content' := by
  have hsame := a.connection_turn s.files t
  have hnodup' := hnodup
  rw [← h.written] at hnodup'
  constructor
  · refine ⟨?_, fun j b hj id hid => ?_, fun id hid => ?_⟩
    · rw [← h.written]
      exact Counting.filterMap_set hk (congrArg Connection.target hsame)
    · show (a.turn s.files t).1 id = b.file
      rw [List.getElem?_set] at hj
      split at hj
      · rename_i hkj
        subst hkj
        split at hj
        · obtain rfl := Option.some.inj hj
          rw [hsame] at hid
          exact Handling.turn_own hid (h.file k a hk id hid)
        · cases hj
      · rename_i hkj
        rw [Handling.turn_other]
        · exact h.file j b hj id hid
        · exact fun ha => hkj (Counting.place_unique hnodup' hk hj ha hid)
    · show (a.turn s.files t).1 id = none
      rw [Handling.turn_other]
      · exact h.nothing id hid
      · intro ha
        refine hid ?_
        rw [← h.written]
        exact List.mem_filterMap.2 ⟨a, List.mem_of_getElem? hk, ha⟩
  · intro id content hcontent
    by_cases ha : a.connection.target = some id
    · exact Handling.turn_grows ha (h.file k a hk id ha) hcontent
    · exact ⟨content, by rw [Handling.turn_other ha]; exact hcontent, List.prefix_refl _⟩

end Apart

/-! ## Runs -/

section Runs

variable {es : List ServerEvent}

theorem BlockServer.turn_some {s : BlockServer} {k : Nat} {h : Handling} (hk : s.threads[k]? = some h) (t : Turn) :
    s.step (.turn k t) = { files := (h.turn s.files t).1, threads := s.threads.set k (h.turn s.files t).2 } := by
  rw [BlockServer.step, hk]

theorem BlockServer.turn_none {s : BlockServer} {k : Nat} (hk : s.threads[k]? = none) (t : Turn) :
    s.step (.turn k t) = s := by
  rw [BlockServer.step, hk]

/-- As long as no block is written twice the threads that write are apart. -/
theorem apart_after (honce : (es.filterMap ServerEvent.writes).Nodup) :
    ∀ pre, pre <+: es → Apart (pre.filterMap ServerEvent.writes) (after BlockServer.step {} pre) := by
  refine @after_invariant _ _ BlockServer.step {} (fun pre s => Apart (pre.filterMap ServerEvent.writes) s) es
    ⟨rfl, fun j h hj => (by cases hj), fun id _ => rfl⟩ ?_
  intro pre e hpre h
  have hnodup : ((pre ++ [e]).filterMap ServerEvent.writes).Nodup := honce.sublist (hpre.sublist.filterMap _)
  rw [List.filterMap_append] at hnodup ⊢
  cases e with
  | accept c =>
    have hwrites : [ServerEvent.accept c].filterMap ServerEvent.writes = c.target.toList := by
      cases htarget : c.target <;> simp [ServerEvent.writes, htarget]
    rw [hwrites] at hnodup ⊢
    refine h.accept c fun id hid htarget => ?_
    rw [htarget] at hnodup
    exact (List.disjoint_of_nodup_append hnodup) hid (List.mem_singleton_self id)
  | turn k t =>
    rw [show [ServerEvent.turn k t].filterMap ServerEvent.writes = [] from rfl, List.append_nil] at hnodup ⊢
    cases hk : (after BlockServer.step {} pre).threads[k]? with
    | none => rw [BlockServer.turn_none hk]; exact h
    | some a => rw [BlockServer.turn_some hk]; exact (h.turn hnodup hk t).1

/-- What a read has found stays true of it until the end of the run. -/
theorem found_after (honce : (es.filterMap ServerEvent.writes).Nodup) {pre : List ServerEvent} {k : Nat} {id : Int64}
    {post : List ServerEvent} (hes : pre ++ .turn k .openFile :: post = es)
    (hload : (after BlockServer.step {} pre).threads[k]? = some (.load id)) :
    ∃ h, (after BlockServer.step {} es).threads[k]? = some h ∧
      h.Found ((after BlockServer.step {} pre).files id) (after BlockServer.step {} es).files := by
  subst hes
  have hall : ∀ post', post' <+: post → ∃ h,
      (after BlockServer.step {} (pre ++ .turn k .openFile :: post')).threads[k]? = some h ∧
        h.Found ((after BlockServer.step {} pre).files id)
          (after BlockServer.step {} (pre ++ .turn k .openFile :: post')).files := by
    intro post' hpost
    induction post' using List.reverseRecOn with
    | nil =>
      rw [after_snoc, BlockServer.turn_some hload]
      exact ⟨_, List.getElem?_set_self (List.getElem?_eq_some_iff.1 hload).1, Handling.found_open _ id⟩
    | append_singleton post' e ih =>
      have hpost' := (List.prefix_append post' [e]).trans hpost
      obtain ⟨h, hk, hfound⟩ := ih hpost'
      have hbegin : pre ++ .turn k .openFile :: post' <+: pre ++ .turn k .openFile :: post :=
        (List.prefix_append_right_inj pre).2 (List.cons_prefix_cons.2 ⟨rfl, hpost'⟩)
      rw [← List.cons_append, ← List.append_assoc, after_snoc]
      cases e with
      | accept c =>
        refine ⟨h, ?_, hfound⟩
        show (_ ++ [Handling.start c])[k]? = some h
        rw [List.getElem?_append_left (List.getElem?_eq_some_iff.1 hk).1]
        exact hk
      | turn j t =>
        cases hj : (after BlockServer.step {} (pre ++ .turn k .openFile :: post')).threads[j]? with
        | none => rw [BlockServer.turn_none hj]; exact ⟨h, hk, hfound⟩
        | some a =>
          rw [BlockServer.turn_some hj]
          by_cases hjk : j = k
          · subst hjk
            obtain rfl := Option.some.inj (hj.symm.trans hk)
            exact ⟨_, List.getElem?_set_self (List.getElem?_eq_some_iff.1 hk).1, hfound.turn t⟩
          · obtain ⟨-, hgrow⟩ := (apart_after honce _ hbegin).turn (honce.sublist (hbegin.sublist.filterMap _)) hj t
            exact ⟨h, by rw [List.getElem?_set_ne hjk]; exact hk, hfound.grow hgrow⟩
  exact hall post (List.prefix_refl post)

/-- A block that was read as `reply` says comes to the client as the file that was found. -/
theorem receiveBlock_reply {found : Option Bytes} (hfits : ∀ content, found = some content → content.length < maxSize) :
    receiveBlock (Handling.reply found) = found := by
  cases found with
  | none => rfl
  | some content => exact receiveBlock_answer (hfits content rfl)

/-- The files are no longer than their payloads. -/
theorem Apart.fits {targets : List Int64} {s : BlockServer} (h : Apart targets s) {id : Int64} {content : Bytes}
    (hfile : s.files id = some content) : content.length < maxSize := by
  have hmem : id ∈ targets := by
    by_contra hno
    rw [h.nothing id hno] at hfile
    cases hfile
  rw [← h.written] at hmem
  obtain ⟨a, ha, htarget⟩ := List.mem_filterMap.1 hmem
  obtain ⟨j, hj⟩ := List.mem_iff_getElem?.1 ha
  rw [h.file j a hj id htarget] at hfile
  cases a with
  | storing id' payload written =>
    obtain rfl : payload.1.take written = content := Option.some.inj hfile
    rw [List.length_take]
    exact (Nat.min_le_right _ _).trans_lt payload.2
  | acked id' payload =>
    obtain rfl : payload.1 = content := Option.some.inj hfile
    exact payload.2
  | _ => cases hfile

theorem Connection.written_eq_some {id : Int64} {c : Connection} {payload : Bytes} :
    c.written id = some payload ↔ ∃ data : Buffer, c = .write id data ∧ data.1 = payload := by
  cases c with
  | write id' data =>
    by_cases hid : id' = id
    · subst hid
      simp [Connection.written]
    · simp [Connection.written, hid]
  | cutWrite id' data n => simp [Connection.written]
  | read id' => simp [Connection.written]

/-- When all threads have finished, the files are those of the last writes, in whatever order these are taken. -/
theorem Apart.rest {targets : List Int64} {s : BlockServer} (h : Apart targets s)
    (hrest : ∀ a ∈ s.threads, a.finished = true) (id : Int64) :
    s.files id = lastWritten (s.threads.map Handling.connection) id := by
  have hacked : ∀ a ∈ s.threads, ∀ data, a.connection = .write id data → s.files id = some data.1 := by
    intro a ha data hconnection
    obtain ⟨j, hj⟩ := List.mem_iff_getElem?.1 ha
    have hfile := h.file j a hj id (by rw [hconnection]; rfl)
    have hfinished := hrest a ha
    cases a with
    | acked id' payload =>
      cases hconnection
      exact hfile
    | store id' payload => cases hfinished
    | storing id' payload written => cases hfinished
    | _ => cases hconnection
  cases hlast : lastWritten (s.threads.map Handling.connection) id with
  | none =>
    refine h.nothing id fun hmem => ?_
    rw [← h.written] at hmem
    obtain ⟨a, ha, htarget⟩ := List.mem_filterMap.1 hmem
    have hnone := List.findSome?_eq_none_iff.1 hlast a.connection
      (List.mem_reverse.2 (List.mem_map_of_mem ha))
    cases hconnection : a.connection with
    | write id' data =>
      rw [hconnection] at htarget hnone
      cases htarget
      rw [Connection.written_eq_some.2 ⟨data, rfl, rfl⟩] at hnone
      cases hnone
    | cutWrite id' data n => rw [hconnection] at htarget; cases htarget
    | read id' => rw [hconnection] at htarget; cases htarget
  | some payload =>
    obtain ⟨c, hc, hwritten⟩ := List.exists_of_findSome?_eq_some hlast
    obtain ⟨a, ha, rfl⟩ := List.mem_map.1 (List.mem_reverse.1 hc)
    obtain ⟨data, hconnection, rfl⟩ := Connection.written_eq_some.1 hwritten
    exact hacked a ha data hconnection

/-- The threads of a server that writes no block twice, in whatever order they take their turns. Each read answers with
the file that it found when it opened it, and the client takes that for the block. The file of a block is at all times
what its writer has written so far, and all of it once the writer has acknowledged. And when all threads have finished the
store is that of a server that has handled the connections one after another. -/
theorem overlapping_connections (honce : (es.filterMap ServerEvent.writes).Nodup) (dataDir : Bytes) :
    (∀ pre k post id answer, pre ++ .turn k .openFile :: post = es →
      (after BlockServer.step {} pre).threads[k]? = some (.load id) →
        (after BlockServer.step {} es).threads[k]? = some (.answered id answer) →
          answer = Handling.reply ((after BlockServer.step {} pre).files id) ∧
            receiveBlock answer = (after BlockServer.step {} pre).files id) ∧
    (∀ h ∈ (after BlockServer.step {} es).threads, ∀ id, h.connection.target = some id →
      (after BlockServer.step {} es).files id = h.file) ∧
    ((∀ h ∈ (after BlockServer.step {} es).threads, h.finished = true) → ∀ id,
      (after BlockServer.step {} es).files id = (BlockStorage.afterAll dataDir
        ((after BlockServer.step {} es).threads.map Handling.connection)).held id) := by
  have hapart := apart_after honce es (List.prefix_refl es)
  refine ⟨?_, fun h hh id htarget => ?_, fun hrest id => ?_⟩
  · intro pre k post id answer hes hload hanswered
    have hpre := apart_after honce pre (hes ▸ List.prefix_append pre _)
    obtain ⟨h, hk, hfound⟩ := found_after honce hes hload
    obtain rfl := Option.some.inj (hk.symm.trans hanswered)
    obtain rfl : answer = _ := hfound
    exact ⟨rfl, receiveBlock_reply fun content hfile => hpre.fits hfile⟩
  · obtain ⟨j, hj⟩ := List.mem_iff_getElem?.1 hh
    exact hapart.file j h hj id htarget
  · rw [(represents_afterAll dataDir _).held, hapart.rest hrest]

end Runs

/-- A read that opens the file of a block when `n` bytes of it have been written. -/
def earlyRead (id : Int64) (payload : Buffer) (n : Nat) : List ServerEvent :=
  [.accept (.write id payload), .turn 0 .openFile, .turn 0 (.move n), .accept (.read id), .turn 1 .openFile,
    .turn 1 (.move n), .turn 1 .closeFile]

/-- The client gets these bytes and takes them for the block. -/
theorem overlapping_connections_earlyRead :
    ∃ answer, (after BlockServer.step {} (earlyRead 7 ⟨[1, 2, 3], lt_maxSize (by decide)⟩ 2)).threads[1]? =
        some (.answered 7 answer) ∧ receiveBlock answer = some [1, 2] := by
  obtain ⟨hreads, -⟩ := @overlapping_connections (earlyRead 7 ⟨[1, 2, 3], lt_maxSize (by decide)⟩ 2) (by decide) []
  refine ⟨Handling.reply (some [1, 2]), rfl, ?_⟩
  exact (hreads [.accept (.write 7 ⟨[1, 2, 3], lt_maxSize (by decide)⟩), .turn 0 .openFile, .turn 0 (.move 2),
    .accept (.read 7)] 1 [.turn 1 (.move 2), .turn 1 .closeFile] 7 _ rfl rfl rfl).2

end MiniHadoop.Ndfs
