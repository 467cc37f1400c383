/-
Whether the loop of `WriteFile` ends, and how it cuts the data. The block size is a signed number that nobody checks; it
is converted to `size_t` before the minimum is taken, so a negative one is larger than any data, and only zero leaves
the loop where it is.
-/
import MiniHadoop.Ndfs.WriteOutcome

namespace MiniHadoop.Ndfs

open Text Wire Chunks

/-! ## The loop with its chunks -/

/-- The loop of `WriteFile` with the offset, and with the offset and the bytes of every chunk it goes through. -/
def Cluster.writeTrace (blockSize : Int64) (path : Bytes) (overwrite : Bool) (env : Nat → ChunkEnv) :
    Nat → Cluster → Nat → Nat → Bytes → Option (List (Nat × Bytes) × Cluster × Status)
  | 0, _, _, _, _ => none
  | fuel + 1, c, n, offset, rest =>
    if rest.length = 0 then some ([], c, .OK)
    else
      let chunkSize := min blockSize.toUInt64.toNat rest.length
      let e := env n
      match callRaw e.rpc c.ns (allocateBlock (n = 0) e.id e.order path overwrite) with
      | (ns, .error st) => some ([], { c with ns }, st)
      | (ns, .ok a) =>
        (writeTrace blockSize path overwrite env fuel (Cluster.deliver { c with ns } a (rest.take chunkSize) e) (n + 1)
          (offset + chunkSize) (rest.drop chunkSize)).map fun r => ((offset, rest.take chunkSize) :: r.1, r.2)

section Trace

variable {blockSize : Int64} {path : Bytes} {overwrite : Bool} {env : Nat → ChunkEnv}

/-- Without the chunks it is the loop. -/
theorem writeTrace_writeLoop : ∀ (fuel : Nat) (c : Cluster) (n offset : Nat) (rest : Bytes),
    (c.writeTrace blockSize path overwrite env fuel n offset rest).map (·.2) =
      c.writeLoop blockSize path overwrite env fuel n rest
  | 0, _, _, _, _ => rfl
  | fuel + 1, c, n, offset, rest => by
    rw [Cluster.writeTrace, Cluster.writeLoop]
    by_cases hz : rest.length = 0
    · rw [if_pos hz, if_pos hz]; rfl
    · rw [if_neg hz, if_neg hz]
      simp only
      generalize callRaw (env n).rpc c.ns (allocateBlock (n = 0) (env n).id (env n).order path overwrite) = r
      obtain ⟨ns, st | a⟩ := r
      · rfl
      · simp only
        rw [Option.map_map, ← writeTrace_writeLoop fuel _ (n + 1) (offset + min blockSize.toUInt64.toNat rest.length)]
        rfl

/-- A turn whose allocation call is answered. -/
theorem writeTrace_answered (blockSize : Int64) (path : Bytes) (overwrite : Bool) (c : Cluster) {n : Nat}
    (ha : (env n).rpc = .answered) (offset : Nat) {rest : Bytes} (hne : rest ≠ []) (fuel : Nat) :
    ∃ c' : Cluster, c.writeTrace blockSize path overwrite env (fuel + 1) n offset rest =
      (c'.writeTrace blockSize path overwrite env fuel (n + 1) (offset + (rest.take (chunkLen blockSize)).length)
        (rest.drop (chunkLen blockSize))).map fun r => ((offset, rest.take (chunkLen blockSize)) :: r.1, r.2) := by
  have hlen : ¬ rest.length = 0 := fun h => hne (List.length_eq_zero_iff.1 h)
  have hmin : min blockSize.toUInt64.toNat rest.length = (rest.take (chunkLen blockSize)).length :=
    List.length_take.symm
  have htake : rest.take (min blockSize.toUInt64.toNat rest.length) = rest.take (chunkLen blockSize) :=
    List.take_eq_take_min.symm
  have hdrop : rest.drop (min blockSize.toUInt64.toNat rest.length) = rest.drop (chunkLen blockSize) :=
    List.drop_eq_drop_min.symm
  rw [Cluster.writeTrace, if_neg hlen]
  simp only [callRaw, ha, htake, hdrop]
  rw [hmin]
  exact ⟨_, rfl⟩

/-- When every turn takes something, the loop ends within as many turns as there are bytes, and its chunks tile the
data. -/
theorem writeTrace_tiles (hk : 0 < chunkLen blockSize) (ha : ∀ i, (env i).rpc = .answered) :
    ∀ (fuel : Nat) (c : Cluster) (n offset : Nat) (rest : Bytes), rest.length < fuel →
      ∃ chunks c', c.writeTrace blockSize path overwrite env fuel n offset rest = some (chunks, c', .OK) ∧
        Tiles offset chunks rest
  | 0, _, _, _, _, hfuel => by omega
  | fuel + 1, c, n, offset, rest, hfuel => by
    by_cases hne : rest = []
    · subst hne
      exact ⟨[], c, rfl, .nil offset⟩
    · have hpos : 0 < rest.length := List.length_pos_iff.2 hne
      obtain ⟨c1, hturn⟩ := writeTrace_answered blockSize path overwrite c (ha n) offset hne fuel
      obtain ⟨chunks, c', htrace, htiles⟩ := writeTrace_tiles hk ha fuel c1 (n + 1)
        (offset + (rest.take (chunkLen blockSize)).length) (rest.drop (chunkLen blockSize))
        (by rw [List.length_drop]; omega)
      refine ⟨(offset, rest.take (chunkLen blockSize)) :: chunks, c', ?_, ?_⟩
      · rw [hturn, htrace]; rfl
      · have hchunk : rest.take (chunkLen blockSize) ≠ [] := by
          intro hnil
          rcases List.take_eq_nil_iff.1 hnil with h0 | h0
          · omega
          · exact hne h0
        have hall := Tiles.cons hchunk htiles
        rwa [List.take_append_drop] at hall

/-- With the block size zero a turn leaves the loop where it was. -/
theorem writeTrace_stuck (hk : chunkLen blockSize = 0) (ha : ∀ i, (env i).rpc = .answered) :
    ∀ (fuel : Nat) (c : Cluster) (n offset : Nat) (rest : Bytes), rest ≠ [] →
      c.writeTrace blockSize path overwrite env fuel n offset rest = none
  | 0, _, _, _, _, _ => rfl
  | fuel + 1, c, n, offset, rest, hne => by
    obtain ⟨c1, hturn⟩ := writeTrace_answered blockSize path overwrite c (ha n) offset hne fuel
    rw [hturn, hk, List.drop_zero, writeTrace_stuck hk ha fuel c1 _ _ rest hne]
    rfl

theorem chunkLen_eq_zero_iff : chunkLen blockSize = 0 ↔ blockSize = 0 := by
  constructor
  · intro h
    have hzero : blockSize.toUInt64 = 0 := UInt64.toNat_inj.1 h
    rw [← Int64.toInt64_toUInt64 blockSize, hzero]
    rfl
  · rintro rfl
    rfl

/-- The loop ends, and its chunks tile the data. -/
def Cluster.Chunks (c : Cluster) (blockSize : Int64) (path : Bytes) (data : Buffer) (overwrite : Bool)
    (env : Nat → ChunkEnv) : Prop :=
  ∃ fuel chunks c', c.writeTrace blockSize path overwrite env fuel 0 0 data.1 = some (chunks, c', .OK) ∧
    Tiles 0 chunks data.1

/-- When every call is answered, the loop of `WriteFile` ends, with non-empty consecutive chunks that cover the data
once, exactly when the block size is not zero or there is nothing to write. -/
theorem chunks_iff (ha : ∀ i, (env i).rpc = .answered) (c : Cluster) (data : Buffer) :
    c.Chunks blockSize path data overwrite env ↔ blockSize ≠ 0 ∨ data.1 = [] := by
  constructor
  · rintro ⟨fuel, chunks, c', htrace, -⟩
    by_contra hno
    rw [not_or, not_not] at hno
    rw [writeTrace_stuck (chunkLen_eq_zero_iff.2 hno.1) ha fuel c 0 0 data.1 hno.2] at htrace
    cases htrace
  · rintro (hsize | hempty)
    · have hk : 0 < chunkLen blockSize := Nat.pos_of_ne_zero fun h => hsize (chunkLen_eq_zero_iff.1 h)
      exact ⟨data.1.length + 1, writeTrace_tiles hk ha _ c 0 0 data.1 (by omega)⟩
    · rw [Cluster.Chunks, hempty]
      exact ⟨1, [], c, rfl, .nil 0⟩

theorem chunks_negative : (freshCluster [localNode 9000]).Chunks (-5) (bytes "/f") threeBytes true healthyTurn :=
  (chunks_iff (fun _ => rfl) _ threeBytes).2 (.inl (by decide))

end Trace

/-- With the block size zero a write of three bytes never ends. -/
theorem zero_block_size_never_ends : ¬ ∀ (c : Cluster) (blockSize : Int64) (path : Bytes) (data : Buffer)
    (overwrite : Bool) (env : Nat → ChunkEnv), (∀ i, (env i).rpc = .answered) →
      c.Chunks blockSize path data overwrite env := by
  intro h
  obtain ⟨fuel, chunks, c', htrace, -⟩ := h (freshCluster [localNode 9000]) 0 (bytes "/f") threeBytes true healthyTurn
    fun _ => rfl
  rw [writeTrace_stuck rfl (fun _ => rfl) fuel _ 0 0 threeBytes.1 (by decide)] at htrace
  cases htrace

end MiniHadoop.Ndfs
