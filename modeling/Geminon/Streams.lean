import Geminon.Response
import Geminon.Copying

namespace Geminon
open Memory Process Copying
set_option autoImplicit true

/-- How many octets a copy asks for, and how many it has in hand when it writes. -/
inductive Note where
  | asked (want : Nat)
  | pending (n : Nat)
  deriving DecidableEq, Repr

/-- How a streaming function reads into its buffer, and how much there is left to read. -/
structure Reader (ι : Type) (block : Nat) where
  read : ι → Buf block → Nat → Except Fault (Int × Buf block × ι)
  left : ι → Nat
  less : ∀ {i buf n r buf' i'}, read i buf n = .ok (r, buf', i') → 0 < r → left i' < left i

/-- A function that writes octets from the front of an object, as `write` does. -/
abbrev Writer (σ : Type) := List UInt8 → Nat → Proc σ Int

/-- The second loop of both streaming functions; each turn asks for at least one octet less. -/
def flushLoop (write : Writer σ) (buf : Buf block) : Nat → Nat → Proc σ (Int × List Note)
  | _, 0 => pure (0, [])
  | 0, _ + 1 => throw .endless
  | turns + 1, n + 1 => do
    let nwrit ← write buf.octets (n + 1)
    if nwrit < 0 then pure (nwrit, [.pending (n + 1)])
    else
      let (buf, left) ← checked (moveDown buf (n + 1) nwrit.toNat)
      let (rc, notes) ← flushLoop write buf turns left
      pure (rc, .pending (n + 1) :: notes)

/-- The first loop of both streaming functions, with `n` octets of the buffer in use. -/
def copyLoop (reader : Reader ι block) (write : Writer σ) (i : ι) (buf : Buf block) (n : Nat) :
    Proc σ (Int × List Note) :=
  match _h : reader.read i buf n with
  | .error fault => throw fault
  | .ok (nread, buf, i) =>
    if _hpos : 0 < nread then do
      let n' := n + nread.toNat
      let nwrit ← write buf.octets n'
      if nwrit < 0 then pure (nwrit, [.asked (block - n), .pending n'])
      else
        let (buf, left) ← checked (moveDown buf n' nwrit.toNat)
        let (rc, notes) ← copyLoop reader write i buf left
        pure (rc, .asked (block - n) :: .pending n' :: notes)
    else if nread < 0 then pure (nread, [.asked (block - n)])
    else do
      let (rc, notes) ← flushLoop write buf n n
      pure (rc, .asked (block - n) :: notes)
termination_by reader.left i
decreasing_by exact reader.less _h _hpos

section Turns
variable {ι σ : Type} {block n : Nat} {reader : Reader ι block} {write : Writer σ} {i i' : ι}
  {buf buf' : Buf block} {nread : Int}

theorem copyLoop_fault (h : reader.read i buf n = .error fault) :
    copyLoop reader write i buf n = throw fault := by
  rw [copyLoop]
  split
  · rename_i he
    rw [h] at he
    cases he
    rfl
  · rename_i he
    rw [h] at he
    cases he

theorem copyLoop_reads (h : reader.read i buf n = .ok (nread, buf', i')) (hpos : 0 < nread) :
    copyLoop reader write i buf n = (do
      let nwrit ← write buf'.octets (n + nread.toNat)
      if nwrit < 0 then pure (nwrit, [.asked (block - n), .pending (n + nread.toNat)])
      else
        let (buf, left) ← checked (moveDown buf' (n + nread.toNat) nwrit.toNat)
        let (rc, notes) ← copyLoop reader write i' buf left
        pure (rc, .asked (block - n) :: .pending (n + nread.toNat) :: notes)) := by
  rw [copyLoop]
  split
  · rename_i he
    rw [h] at he
    cases he
  · rename_i he
    rw [h] at he
    cases he
    rw [dif_pos hpos]

theorem copyLoop_fails (h : reader.read i buf n = .ok (nread, buf', i')) (hneg : nread < 0) :
    copyLoop reader write i buf n = pure (nread, [.asked (block - n)]) := by
  rw [copyLoop]
  split
  · rename_i he
    rw [h] at he
    cases he
  · rename_i he
    rw [h] at he
    cases he
    rw [dif_neg (by omega), if_pos hneg]

theorem copyLoop_ends (h : reader.read i buf n = .ok (0, buf', i')) :
    copyLoop reader write i buf n = (do
      let (rc, notes) ← flushLoop write buf' n n
      pure (rc, .asked (block - n) :: notes)) := by
  rw [copyLoop]
  split
  · rename_i he
    rw [h] at he
    cases he
  · rename_i he
    rw [h] at he
    cases he
    rw [dif_neg (by omega), if_neg (by omega)]

end Turns

def fdRead (reads : List (Option (List UInt8))) (buf : Buf block) (n : Nat) :
    Except Fault (Int × Buf block × List (Option (List UInt8))) :=
  match read reads (block - n) with
  | (none, reads) => .ok (-1, buf, reads)
  | (some [], reads) => .ok (0, buf, reads)
  | (some (c :: piece), reads) => do
    let buf ← buf.copyIn n (c :: piece)
    .ok ((c :: piece).length, buf, reads)

theorem fdRead_less (h : fdRead reads buf n = .ok (r, buf', reads')) (hr : 0 < r) :
    pendingReads reads' < pendingReads reads := by
  unfold fdRead at h
  split at h
  · cases h
    exact absurd hr (by decide)
  · cases h
    exact absurd hr (by decide)
  · rename_i hread
    obtain ⟨buf₁, _, h⟩ := bind_eq_ok h
    cases h
    exact read_pending hread (List.cons_ne_nil _ _)

def fdReader (block : Nat) : Reader (List (Option (List UInt8))) block where
  read := fdRead
  left := pendingReads
  less := fdRead_less

/-- `gemini_request_stream` over any function in the place of `gemini_request_write`. -/
def requestStreamBy (write : Writer σ) (malloc : Malloc) (reads : List (Option (List UInt8)))
    (block : Nat) : Proc σ (Int × List Note) :=
  match malloc with
  | none => pure (-1, [])
  | some mem => copyLoop (fdReader block) write reads (Buf.filled block mem) 0

theorem streamFlush_eq (buf : Buf block) (turns n : Nat) :
    streamFlush buf turns n = Prod.fst <$> flushLoop geminiRequestWrite buf turns n := by
  induction turns generalizing buf n with
  | zero =>
    cases n with
    | zero => rw [streamFlush, flushLoop, map_pure]
    | succ n => rfl
  | succ turns ih =>
    cases n with
    | zero => rw [streamFlush, flushLoop, map_pure]
    | succ n =>
      rw [streamFlush, flushLoop, map_bind]
      congr 1
      funext nwrit
      split
      · rw [map_pure]
      · simp only [map_bind, ih, bind_pure_comp, Functor.map_map]

theorem streamLoop_eq (reads : List (Option (List UInt8))) (buf : Buf block) (n : Nat) :
    streamLoop reads buf n =
      Prod.fst <$> copyLoop (fdReader block) geminiRequestWrite reads buf n := by
  induction hk : pendingReads reads using Nat.strong_induction_on generalizing reads buf n with
  | _ k ih =>
    rw [streamLoop]
    split
    · rename_i reads' hread
      have hfd : (fdReader block).read reads buf n = .ok (-1, buf, reads') := by
        change fdRead reads buf n = _
        rw [fdRead, hread]
      rw [copyLoop_fails hfd (by decide), map_pure]
    · rename_i reads' hread
      have hfd : (fdReader block).read reads buf n = .ok (0, buf, reads') := by
        change fdRead reads buf n = _
        rw [fdRead, hread]
      rw [copyLoop_ends hfd, streamFlush_eq]
      simp only [bind_pure_comp, Functor.map_map]
    · rename_i c piece reads' hread
      have hless : pendingReads reads' < k := hk ▸ read_pending hread (List.cons_ne_nil _ _)
      have hfd : (fdReader block).read reads buf n = (buf.copyIn n (c :: piece)).bind
          fun buf => .ok (((c :: piece).length : Int), buf, reads') := by
        change fdRead reads buf n = _
        rw [fdRead, hread]
        rfl
      cases hcopy : buf.copyIn n (c :: piece) with
      | error fault =>
        rw [hcopy] at hfd
        rw [copyLoop_fault hfd]
        rfl
      | ok buf' =>
        rw [hcopy] at hfd
        have hpos : (0 : Int) < ((c :: piece).length : Nat) := by
          rw [List.length_cons]
          omega
        rw [copyLoop_reads hfd hpos]
        simp only [checked, pure_bind, map_bind, Int.toNat_natCast]
        congr 1
        funext nwrit
        split
        · rw [map_pure]
        · simp only [map_bind, bind_pure_comp, Functor.map_map]
          congr 1
          funext moved
          exact ih _ hless reads' moved.1 moved.2 rfl

/-- The stream of a file is that one with the code's own write. -/
theorem geminiRequestStream_eq (malloc : Malloc) (reads : List (Option (List UInt8)))
    (block : Nat) : geminiRequestStream malloc reads block =
      Prod.fst <$> requestStreamBy geminiRequestWrite malloc reads block := by
  cases malloc with
  | none => rw [geminiRequestStream, requestStreamBy, map_pure]
  | some mem => exact streamLoop_eq reads _ 0

/-- A copy asks for at least one octet, and has no more in hand than its buffer takes. -/
def Note.Proper (block : Nat) : Note → Prop
  | .asked want => 0 < want
  | .pending n => n ≤ block

/-- A write passes on octets from the front and returns how many, unless it fails. -/
def Honours (write : Writer σ) (passed : σ → List UInt8) : Prop :=
  ∀ octets n s, 0 < n → n ≤ octets.length →
    Outcome (write octets n) s (fun r s' => ∃ k ≤ n, passed s' = passed s ++ octets.take k ∧
      (0 ≤ r → 0 < k ∧ r = k)) fun _ _ => False

/-- A read puts what comes next behind what is held, and brings nothing only at the end. -/
structure Supplies (reader : Reader ι block) (steady : ι → Prop) (source : ι → List UInt8)
    (room : Nat) : Prop where
  room_le : room ≤ block
  reads : ∀ i buf held, steady i → buf.Starts held → held.length < room →
    ∃ r buf' i', reader.read i buf held.length = .ok (r, buf', i') ∧
      (0 ≤ r → steady i' ∧ ∃ piece : List UInt8, r = piece.length ∧ buf'.Starts (held ++ piece) ∧
        held.length + piece.length ≤ room ∧ source i = piece ++ source i' ∧
          (piece = [] → source i = []))

/-- A run that moved a relay on, to its end if it returned zero. -/
def Relayed (room : Nat) (passed : σ → List UInt8) (r : Relay UInt8) (rc : Int) (s' : σ) : Prop :=
  ∃ r', Steps room r r' ∧ passed s' = r'.passed ∧ (rc = 0 → r'.held = [] ∧ r'.coming = [])

theorem moveDown_starts {buf : Buf block} (hb : buf.Starts held) (hk : k ≤ held.length) :
    ∃ buf', moveDown buf held.length k = .ok (buf', (held.drop k).length) ∧
      buf'.Starts (held.drop k) := by
  have hle := hb.length_le
  obtain ⟨junk, he⟩ := hb
  have hrun : k + (held.length - k) ≤ buf.octets.length := by
    rw [buf.size]
    omega
  have hload : (buf.octets.drop k).take (held.length - k) = held.drop k := by
    rw [he, List.drop_append_of_le_length hk, ← List.length_drop, List.take_left]
  obtain ⟨buf', hcopy, hb'⟩ := buf.starts_nil.copyIn (held.drop k) (by
    rw [List.length_nil, List.length_drop]
    omega)
  refine ⟨buf', ?_, hb'⟩
  rw [List.length_nil] at hcopy
  simp only [moveDown, sizeSub_of_le hk, loadRun, dif_pos hrun, bind, Except.bind, hload, hcopy,
    List.length_drop]

section Copies
variable {ι σ : Type} {block room n turns : Nat} {reader : Reader ι block} {write : Writer σ}
  {passed : σ → List UInt8} {steady : ι → Prop} {source : ι → List UInt8} {s : σ}
  {held coming : List UInt8}

theorem writeAndMove_relays {buf : Buf block} {next : Buf block × Nat → Proc σ (Int × List Note)}
    {notes : List Note} (hw : Honours write passed) (hb : buf.Starts held) (hpos : 0 < held.length)
    (hnotes : ∀ note ∈ notes, note.Proper block)
    (hnext : ∀ k buf' s', 0 < k → k ≤ held.length → buf'.Starts (held.drop k) →
      passed s' = passed s ++ held.take k →
      Outcome (next (buf', (held.drop k).length)) s' (fun r s'' =>
        Relayed room passed ⟨passed s', held.drop k, coming⟩ r.1 s'' ∧
          ∀ note ∈ r.2, note.Proper block) fun _ _ => False) :
    Outcome (do
      let nwrit ← write buf.octets held.length
      if nwrit < 0 then pure (nwrit, notes)
      else
        let moved ← checked (moveDown buf held.length nwrit.toNat)
        next moved) s (fun r s' => Relayed room passed ⟨passed s, held, coming⟩ r.1 s' ∧
          ∀ note ∈ r.2, note.Proper block) fun _ _ => False := by
  have hle := hb.length_le
  apply Outcome.andThen (hw buf.octets held.length s hpos (by rwa [buf.size]))
  intro nwrit s' hwrote
  obtain ⟨k, hk, hpassed, hcount⟩ := hwrote
  have htake : buf.octets.take k = held.take k := by
    obtain ⟨junk, he⟩ := hb
    rw [he, List.take_append_of_le_length hk]
  rw [htake] at hpassed
  have hstep {rc : Int} {s'' : σ}
      (h : Relayed room passed ⟨passed s', held.drop k, coming⟩ rc s'') :
      Relayed room passed ⟨passed s, held, coming⟩ rc s'' := by
    obtain ⟨r', hsteps, hr'⟩ := h
    rw [hpassed] at hsteps
    exact ⟨r', .pass k hsteps, hr'⟩
  split
  · rename_i hneg
    refine .pure ⟨hstep ⟨_, .refl, rfl, ?_⟩, hnotes⟩
    intro hzero
    omega
  · rename_i hneg
    obtain ⟨hk0, hnwrit⟩ := hcount (by omega)
    obtain ⟨buf', hmove, hb'⟩ := moveDown_starts hb hk
    rw [hnwrit, Int.toNat_natCast, hmove]
    apply Outcome.bind (.pure ((hnext k buf' s' hk0 hk hb' hpassed).imp _))
    intro r s'' hr
    exact ⟨hstep hr.1, hr.2⟩

theorem flushLoop_done (buf : Buf block) (turns : Nat) :
    flushLoop write buf turns 0 = pure (0, []) := by
  cases turns <;> rfl

theorem flushLoop_writes (buf : Buf block) (turns : Nat) (hn : 0 < n) :
    flushLoop write buf (turns + 1) n = (do
      let nwrit ← write buf.octets n
      if nwrit < 0 then pure (nwrit, [.pending n])
      else
        let (buf, left) ← checked (moveDown buf n nwrit.toNat)
        let (rc, notes) ← flushLoop write buf turns left
        pure (rc, .pending n :: notes)) := by
  cases n with
  | zero => exact absurd hn (Nat.lt_irrefl 0)
  | succ n => rw [flushLoop]

theorem flushLoop_relays {buf : Buf block} (hw : Honours write passed) (hb : buf.Starts held)
    (hturns : held.length ≤ turns) :
    Outcome (flushLoop write buf turns held.length) s (fun r s' =>
      Relayed room passed ⟨passed s, held, []⟩ r.1 s' ∧ ∀ note ∈ r.2, note.Proper block)
      fun _ _ => False := by
  induction turns generalizing held buf s with
  | zero =>
    have hnil : held = [] := List.length_eq_zero_iff.1 (Nat.le_zero.1 hturns)
    rw [hnil, List.length_nil, flushLoop_done]
    exact .pure ⟨⟨_, .refl, rfl, fun _ => ⟨rfl, rfl⟩⟩, by simp⟩
  | succ turns ih =>
    by_cases hnil : held = []
    · rw [hnil, List.length_nil, flushLoop_done]
      exact .pure ⟨⟨_, .refl, rfl, fun _ => ⟨rfl, rfl⟩⟩, by simp⟩
    have hpos := List.length_pos_of_ne_nil hnil
    have hpending : (Note.pending held.length).Proper block := hb.length_le
    rw [flushLoop_writes buf turns hpos]
    apply writeAndMove_relays hw hb hpos
    · intro note hm
      rw [List.mem_singleton.1 hm]
      exact hpending
    · intro k buf' s' hk0 hk hb' hpassed
      apply Outcome.andThen (ih hb' (by rw [List.length_drop]; omega))
      intro r s'' hr
      refine .pure ⟨hr.1, ?_⟩
      intro note hm
      cases hm with
      | head => exact hpending
      | tail _ hm => exact hr.2 note hm

theorem copyLoop_relays {i : ι} {buf : Buf block} (hw : Honours write passed)
    (hr : Supplies reader steady source room) (hi : steady i) (hb : buf.Starts held)
    (hroom : held.length < room) :
    Outcome (copyLoop reader write i buf held.length) s (fun r s' =>
      Relayed room passed ⟨passed s, held, source i⟩ r.1 s' ∧ ∀ note ∈ r.2, note.Proper block)
      fun _ _ => False := by
  induction hk : reader.left i using Nat.strong_induction_on generalizing held i buf s with
  | _ k ih =>
    have hle := hr.room_le
    have hasked : (Note.asked (block - held.length)).Proper block := by
      change 0 < block - held.length
      omega
    obtain ⟨r, buf', i', hread, hmore⟩ := hr.reads i buf held hi hb hroom
    by_cases hneg : r < 0
    · rw [copyLoop_fails hread hneg]
      refine .pure ⟨⟨_, .refl, rfl, ?_⟩, ?_⟩
      · intro hzero
        omega
      · intro note hm
        rw [List.mem_singleton.1 hm]
        exact hasked
    obtain ⟨hi', piece, rfl, hb', hroom', hsource, hend⟩ := hmore (Int.not_lt.1 hneg)
    by_cases hpiece : piece = []
    · subst piece
      rw [List.append_nil] at hb'
      rw [copyLoop_ends hread, hend rfl]
      apply Outcome.andThen (flushLoop_relays hw hb' (Nat.le_refl _))
      intro r s' hr'
      refine .pure ⟨hr'.1, ?_⟩
      intro note hm
      cases hm with
      | head => exact hasked
      | tail _ hm => exact hr'.2 note hm
    · have hpos := List.length_pos_of_ne_nil hpiece
      have hless : reader.left i' < k := hk ▸ reader.less hread (Int.ofNat_lt.2 hpos)
      have hlen : held.length + piece.length = (held ++ piece).length :=
        List.length_append.symm
      have hpending : (Note.pending (held ++ piece).length).Proper block := hb'.length_le
      have htake {rc : Int} {s' : σ}
          (h : Relayed room passed ⟨passed s, held ++ piece, source i'⟩ rc s') :
          Relayed room passed ⟨passed s, held, source i⟩ rc s' := by
        obtain ⟨r', hsteps, hr'⟩ := h
        exact ⟨r', .take piece hroom' hsource hsteps, hr'⟩
      rw [copyLoop_reads hread (Int.ofNat_lt.2 hpos), Int.toNat_natCast, hlen]
      apply Outcome.imp (Q := fun r s' =>
        Relayed room passed ⟨passed s, held ++ piece, source i'⟩ r.1 s' ∧
          ∀ note ∈ r.2, note.Proper block)
      · apply writeAndMove_relays hw hb' (by omega)
        · intro note hm
          cases hm with
          | head => exact hasked
          | tail _ hm =>
            rw [List.mem_singleton.1 hm]
            exact hpending
        · intro k buf₁ s' hk0 hk' hb₁ hpassed
          have hroom₁ : ((held ++ piece).drop k).length < room := by
            rw [List.length_drop]
            omega
          apply Outcome.andThen (ih _ hless hi' hb₁ hroom₁ rfl)
          intro r s'' hr'
          refine .pure ⟨hr'.1, ?_⟩
          intro note hm
          cases hm with
          | head => exact hasked
          | tail _ hm =>
            cases hm with
            | head => exact hpending
            | tail _ hm => exact hr'.2 note hm
      · intro r s' hr'
        exact ⟨htake hr'.1, hr'.2⟩

end Copies

/-- Reads that bring what is left, one after the other, of what reads brought. -/
inductive Later : List (Option (List UInt8)) → List (Option (List UInt8)) → Prop where
  | refl (reads : List (Option (List UInt8))) : Later reads reads
  | step : read reads want = (piece, reads₁) → Later reads₁ reads' → Later reads reads'

/-- Reads that bring nothing only when there is nothing left. -/
def Steady (reads : List (Option (List UInt8))) : Prop := some [] ∉ reads

theorem read_steady (h : read reads want = (piece, reads')) (hs : Steady reads) :
    Steady reads' := by
  unfold read at h
  split at h
  · cases h
    exact hs
  · cases h
    exact fun hm => hs (List.mem_cons_of_mem _ hm)
  · rename_i whole rest
    split at h
    · cases h
      exact fun hm => hs (List.mem_cons_of_mem _ hm)
    · rename_i hlong
      cases h
      intro hm
      rw [List.mem_cons] at hm
      cases hm with
      | inl he => exact hlong (List.drop_eq_nil_iff.1 (Option.some.inj he).symm)
      | inr hm => exact hs (List.mem_cons_of_mem _ hm)

theorem read_pending_le (h : read reads want = (piece, reads')) :
    pendingReads reads' ≤ pendingReads reads := by
  unfold read at h
  split at h
  · cases h
    exact Nat.le_refl _
  · cases h
    exact Nat.le_add_left _ _
  · split at h
    · cases h
      exact Nat.le_add_left _ _
    · cases h
      simp only [pendingReads, List.map_cons, List.sum_cons, Option.getD_some, List.length_drop]
      omega

theorem Later.steady (h : Later reads reads') (hs : Steady reads) : Steady reads' := by
  induction h with
  | refl => exact hs
  | step hread _ ih => exact ih (read_steady hread hs)

theorem Later.pending_le (h : Later reads reads') : pendingReads reads' ≤ pendingReads reads := by
  induction h with
  | refl => exact Nat.le_refl _
  | step hread _ ih => exact ih.trans (read_pending_le hread)

theorem read_done (h : read reads want = (some [], reads')) (hwant : 0 < want)
    (hs : Steady reads) : stock reads = [] := by
  unfold read at h
  split at h
  · rfl
  · cases h
  · rename_i whole rest
    split at h
    · cases h
      exact absurd List.mem_cons_self hs
    · rename_i hlong
      rw [Prod.mk.injEq, Option.some.injEq, List.take_eq_nil_iff] at h
      cases h.1 with
      | inl hzero => omega
      | inr hnil => exact absurd (by rw [hnil]; exact Nat.zero_le _) hlong

theorem fdReader_supplies (block : Nat) : Supplies (fdReader block) Steady stock block where
  room_le := Nat.le_refl _
  reads := by
    intro reads buf held hs hb hroom
    change ∃ r buf' reads', fdRead reads buf held.length = _ ∧ _
    rw [fdRead]
    cases hread : read reads (block - held.length) with
    | mk piece reads' =>
      have hs' := read_steady hread hs
      cases piece with
      | none => exact ⟨-1, buf, reads', rfl, fun hneg => absurd hneg (by decide)⟩
      | some piece =>
        cases piece with
        | nil =>
          have hend := read_done hread (by omega) hs
          obtain ⟨_, _, hstock⟩ := read_end hread
          exact ⟨0, buf, reads', rfl, fun _ => ⟨hs', [], rfl, by rwa [List.append_nil],
            Nat.le_of_lt hroom, hstock, fun _ => hend⟩⟩
        | cons c piece =>
          have hlen := read_length hread
          obtain ⟨_, _, hstock⟩ := read_piece (List.cons_ne_nil c piece) hread
          obtain ⟨buf', hcopy, hb'⟩ := hb.copyIn (c :: piece) (by omega)
          refine ⟨(c :: piece).length, buf', reads', ?_, ?_⟩
          · simp only [hcopy, bind, Except.bind]
          · intro _
            exact ⟨hs', c :: piece, rfl, hb', by omega, hstock,
              fun hnil => absurd hnil (List.cons_ne_nil _ _)⟩

theorem sslRead_later {ssl ssl' : Tls} (h : sslRead ssl n = (piece, ssl')) :
    Later ssl.reads ssl'.reads ∧
      ∀ c octets, piece = some (c :: octets) → pendingReads ssl'.reads < pendingReads ssl.reads := by
  rw [sslRead] at h
  split at h
  · cases h
    exact ⟨.refl _, by simp⟩
  · cases hread : read ssl.reads (intOfSize n).toNat with
    | mk piece' reads =>
      rw [hread] at h
      cases h
      refine ⟨.step hread (.refl _), ?_⟩
      intro c octets he
      subst he
      exact read_pending hread (List.cons_ne_nil _ _)

theorem Later.trans (h : Later reads reads₁) (h' : Later reads₁ reads') : Later reads reads' := by
  induction h with
  | refl => exact h'
  | step hread _ ih => exact .step hread (ih h')

theorem geminiResponseReadLoop_later {ssl ssl' : Tls} {buf buf' : Buf size}
    (h : geminiResponseReadLoop ssl buf cursor n ntotal nread = .ok (r, buf', ssl')) :
    Later ssl.reads ssl'.reads ∧
      ((ntotal : Int) < r → pendingReads ssl'.reads < pendingReads ssl.reads) := by
  induction n using Nat.strong_induction_on generalizing ssl buf cursor ntotal nread with
  | _ n ih =>
    rw [geminiResponseReadLoop] at h
    split at h
    · rename_i hn
      split at h
      · rename_i ssl₁ hread
        cases h
        exact ⟨(sslRead_later hread).1, fun hlt => by omega⟩
      · rename_i ssl₁ hread
        cases h
        exact ⟨(sslRead_later hread).1, fun hlt => absurd hlt (Int.lt_irrefl _)⟩
      · rename_i c piece ssl₁ hread
        obtain ⟨hlater, hless⟩ := sslRead_later hread
        have hlt := hless c piece rfl
        obtain ⟨buf₁, _, h⟩ := bind_eq_ok h
        have hrest := (ih _ (Nat.sub_lt hn (Nat.succ_pos piece.length)) h).1
        exact ⟨hlater.trans hrest, fun _ => Nat.lt_of_le_of_lt hrest.pending_le hlt⟩
    · split at h
      · cases h
        exact ⟨.refl _, fun hlt => by omega⟩
      · cases h
        exact ⟨.refl _, fun hlt => absurd hlt (Int.lt_irrefl _)⟩

theorem geminiResponseRead_less {ssl ssl' : Tls} {buf buf' : Buf size}
    (h : geminiResponseRead stale ssl buf cursor n = .ok (r, buf', ssl')) (hr : 0 < r) :
    pendingReads ssl'.reads < pendingReads ssl.reads :=
  (geminiResponseReadLoop_later h).2 hr

def responseReader (stale : Int) (block : Nat) : Reader Tls block where
  read ssl buf n := geminiResponseRead stale ssl buf n (block - n)
  left ssl := pendingReads ssl.reads
  less := geminiResponseRead_less

/-- `gemini_response_stream` over any function in the place of `write`. -/
def geminiResponseStream (write : Writer σ) (malloc : Malloc) (stale : Int) (ssl : Tls)
    (block : Nat) : Proc σ (Int × List Note) :=
  match malloc with
  | none => pure (-1, [])
  | some mem => copyLoop (responseReader stale block) write ssl (Buf.filled block mem) 0

theorem stock_of_quiet (hs : Steady reads) (hahead : ahead reads = [])
    (hfail : failsAfter reads = false) : stock reads = [] := by
  cases reads with
  | nil => rfl
  | cons outcome reads =>
    cases outcome with
    | none => cases hfail
    | some piece =>
      cases piece with
      | nil => exact absurd List.mem_cons_self hs
      | cons c piece => cases hahead

theorem responseReader_supplies (stale : Int) (block : Nat) :
    Supplies (responseReader stale block) (fun ssl => Steady ssl.reads) (fun ssl => stock ssl.reads)
      (block % 2 ^ 32) where
  room_le := Nat.mod_le _ _
  reads := by
    intro ssl buf held hs hb hroom
    have hle := Nat.mod_le block (2 ^ 32)
    have hmod : (block - held.length) % 2 ^ 32 = block % 2 ^ 32 - held.length := by omega
    obtain ⟨buf', ssl', hread, _, hb', hstock⟩ :=
      geminiResponseRead_gets stale ssl (by omega : 0 < block - held.length) hb (by omega)
    have hs' := (geminiResponseReadLoop_later hread).1.steady hs
    refine ⟨_, buf', ssl', hread, ?_⟩
    intro hnonneg
    have hfails : ¬ Fails (block - held.length) ssl.reads := by
      intro hfails
      rw [if_pos hfails] at hnonneg
      exact absurd hnonneg (by decide)
    have hint : intOfSize (block - held.length) = (block % 2 ^ 32 - held.length : Nat) := by
      have hpos : ¬ intOfSize (block - held.length) < 0 := fun hneg => hfails (.inl hneg)
      rw [intOfSize] at hpos ⊢
      split <;> omega
    rw [if_neg hfails]
    refine ⟨hs', got (block - held.length) ssl.reads, rfl, hb', ?_, hstock, ?_⟩
    · rw [got, hint, Int.toNat_natCast, List.length_take]
      omega
    · intro hnil
      rw [got, hint, Int.toNat_natCast, List.take_eq_nil_iff] at hnil
      have hahead : ahead ssl.reads = [] := hnil.resolve_left (by omega)
      apply stock_of_quiet hs hahead
      rw [← Bool.not_eq_true]
      intro hfail
      apply hfails
      rw [Fails, hahead, hint, List.length_nil]
      exact .inr ⟨hfail, by omega, Int.natCast_nonneg _⟩

/-- Octets from the front of the source are passed on, all of them if zero is returned. -/
def CopiesExactly (passed : σ → List UInt8) (block : Nat) (source : List UInt8)
    (x : Proc σ (Int × List Note)) (s : σ) : Prop :=
  ∃ rc notes s' out, x s = .ok (rc, notes) s' ∧ passed s' = passed s ++ out ∧ out <+: source ∧
    (rc = 0 → out = source) ∧ ∀ note ∈ notes, note.Proper block

section Streaming
variable {ι σ : Type} {block room : Nat} {reader : Reader ι block} {write : Writer σ}
  {passed : σ → List UInt8} {steady : ι → Prop} {source : ι → List UInt8} {s : σ}
  {octets : List UInt8}

theorem copiesExactly_failed : CopiesExactly passed block octets (pure (-1, [])) s :=
  ⟨-1, [], s, [], rfl, by rw [List.append_nil], List.nil_prefix,
    fun hzero => absurd hzero (by decide), by simp⟩

theorem copyLoop_copies {i : ι} (hw : Honours write passed)
    (hr : Supplies reader steady source room) (hi : steady i) (hroom : 0 < room)
    (buf : Buf block) (s : σ) :
    CopiesExactly passed block (source i) (copyLoop reader write i buf 0) s := by
  obtain ⟨⟨rc, notes⟩, s', hrun, ⟨r', hsteps, hpassed, hzero⟩, hnotes⟩ :=
    (copyLoop_relays (s := s) hw hr hi buf.starts_nil hroom).returns
  obtain ⟨out, hout, hwhole⟩ := hsteps.passes
  rw [List.nil_append] at hwhole
  refine ⟨rc, notes, s', out, hrun, by rw [hpassed, hout], ⟨_, hwhole⟩, ?_, hnotes⟩
  intro hrc
  obtain ⟨hheld, hcoming⟩ := hzero hrc
  rwa [hheld, hcoming, List.append_nil, List.append_nil] at hwhole

theorem requestStreamBy_copies (hw : Honours write passed) (hblock : 0 < block)
    {reads : List (Option (List UInt8))} (hs : Steady reads) (malloc : Malloc) (s : σ) :
    CopiesExactly passed block (stock reads) (requestStreamBy write malloc reads block) s := by
  cases malloc with
  | none => exact copiesExactly_failed
  | some mem => exact copyLoop_copies hw (fdReader_supplies block) hs hblock _ s

theorem geminiResponseStream_copies (hw : Honours write passed) {ssl : Tls}
    (hblock : 0 < block % 2 ^ 32) (hs : Steady ssl.reads) (malloc : Malloc) (stale : Int) (s : σ) :
    CopiesExactly passed block (stock ssl.reads) (geminiResponseStream write malloc stale ssl block)
      s := by
  cases malloc with
  | none => exact copiesExactly_failed
  | some mem => exact copyLoop_copies hw (responseReader_supplies stale block) hs hblock _ s

theorem copiesExactly_pure (hnotes : ∀ note ∈ notes, note.Proper block) :
    CopiesExactly passed block octets (pure (rc, notes)) s ↔ (rc = 0 → octets = []) := by
  constructor
  · intro hcopies hrc
    obtain ⟨rc', notes', s', out, hrun, hpassed, _, hall, _⟩ := hcopies
    cases hrun
    have hout : out = [] := List.append_right_eq_self.1 hpassed.symm
    rw [← hall hrc, hout]
  · intro hnone
    exact ⟨rc, notes, s, [], rfl, by rw [List.append_nil], List.nil_prefix,
      fun hrc => (hnone hrc).symm, hnotes⟩

/-- A block whose size is zero as an `int` is never filled. -/
theorem copyLoop_blind (hzero : block % 2 ^ 32 = 0) (hblock : 0 < block) (stale : Int) (ssl : Tls)
    (buf : Buf block) : copyLoop (responseReader stale block) write ssl buf 0 =
      pure (if Fails block ssl.reads then -1 else 0, [.asked block]) := by
  have hint : intOfSize block = 0 := by
    rw [intOfSize, if_pos (by omega)]
    omega
  have hgot : got block ssl.reads = [] := by
    rw [got, hint]
    exact List.take_zero
  obtain ⟨buf', ssl', hread, _⟩ :=
    geminiResponseRead_gets stale ssl hblock buf.starts_nil (by simp)
  rw [hgot] at hread
  split
  · rename_i hfails
    rw [if_pos hfails] at hread
    exact copyLoop_fails hread (by decide)
  · rename_i hfails
    rw [if_neg hfails] at hread
    have hnext : (responseReader stale block).read ssl buf 0 = .ok (0, buf', ssl') := hread
    rw [copyLoop_ends hnext, flushLoop_done]
    rfl

def Fed (reads : List (Option (List UInt8))) : Prop := ∃ piece rest, reads = some piece :: rest

theorem fed_iff (hint : intOfSize n = 0) (hn : 0 < n) (hs : Steady reads) :
    Fed reads ↔ ¬ Fails n reads ∧ stock reads ≠ [] := by
  cases reads with
  | nil => exact iff_of_false (fun ⟨_, _, he⟩ => by cases he) fun h => h.2 rfl
  | cons outcome reads =>
    cases outcome with
    | none =>
      have hfails : Fails n (none :: reads) := .inr ⟨rfl, hn, by rw [hint]; exact Int.le_refl _⟩
      exact iff_of_false (fun ⟨_, _, he⟩ => by cases he) fun h => h.1 hfails
    | some piece =>
      have hne : piece ≠ [] := by
        intro hnil
        subst hnil
        exact hs List.mem_cons_self
      have hpos := List.length_pos_of_ne_nil hne
      refine iff_of_true ⟨piece, reads, rfl⟩ ⟨?_, ?_⟩
      · intro hfails
        cases hfails with
        | inl hneg => omega
        | inr hlate =>
          have hshort := hlate.2.2
          rw [ahead_cons hne, hint, List.length_append] at hshort
          omega
      · rw [stock_cons]
        exact List.append_ne_nil_of_left_ne_nil hne _

theorem geminiResponseStream_copies_iff (hw : Honours write passed) {ssl : Tls}
    (hblock : 0 < block) (hs : Steady ssl.reads) (malloc : Malloc) (stale : Int) (s : σ) :
    CopiesExactly passed block (stock ssl.reads) (geminiResponseStream write malloc stale ssl block)
      s ↔ ¬ (block % 2 ^ 32 = 0 ∧ malloc.isSome ∧ Fed ssl.reads) := by
  by_cases hzero : block % 2 ^ 32 = 0
  · cases malloc with
    | none => exact iff_of_true copiesExactly_failed fun h => by cases h.2.1
    | some mem =>
      have hint : intOfSize block = 0 := by
        rw [intOfSize, if_pos (by omega)]
        omega
      have hnotes : ∀ note ∈ [Note.asked block], note.Proper block := by
        intro note hm
        rw [List.mem_singleton.1 hm]
        exact hblock
      rw [geminiResponseStream, copyLoop_blind hzero hblock, copiesExactly_pure hnotes,
        fed_iff hint hblock hs]
      by_cases hfails : Fails block ssl.reads
      · rw [if_pos hfails]
        exact iff_of_true (fun hrc => absurd hrc (by decide)) fun h => h.2.2.1 hfails
      · rw [if_neg hfails]
        constructor
        · intro hnone h
          exact h.2.2.2 (hnone rfl)
        · intro hfed _
          apply Classical.byContradiction
          intro hne
          exact hfed ⟨hzero, rfl, hfails, hne⟩
  · exact iff_of_true (geminiResponseStream_copies hw (Nat.pos_of_ne_zero hzero) hs malloc stale s)
      fun h => hzero h.1

end Streaming

/-- Both streams are exact copies, unless a block's size is a multiple of 2^32. -/
theorem streams_copy_iff {write : Writer σ} {passed : σ → List UInt8} (hw : Honours write passed)
    {send : Writer τ} {sent : τ → List UInt8} (hsend : Honours send sent) (hblock : 0 < block)
    {ssl : Tls} (hssl : Steady ssl.reads) {reads : List (Option (List UInt8))}
    (hreads : Steady reads) (malloc malloc' : Malloc) (stale : Int) (s : σ) (t : τ) :
    (CopiesExactly passed block (stock ssl.reads)
        (geminiResponseStream write malloc stale ssl block) s ∧
      CopiesExactly sent block (stock reads) (requestStreamBy send malloc' reads block) t) ↔
        ¬ (block % 2 ^ 32 = 0 ∧ malloc.isSome ∧ Fed ssl.reads) := by
  have hrequest := requestStreamBy_copies hsend hblock hreads malloc' t
  rw [and_iff_left hrequest]
  exact geminiResponseStream_copies_iff hw hblock hssl malloc stale s

/-- A descriptor that takes as few octets of each write as it is told to. -/
structure Sink where
  writes : List (Option Nat)
  passed : List UInt8

def Sink.write : Writer Sink := fun octets n =>
  modifyGet fun sink =>
    match sink.writes with
    | some k :: writes =>
      ((max 1 (min k n) : Nat), ⟨writes, sink.passed ++ octets.take (max 1 (min k n))⟩)
    | none :: writes => (-1, ⟨writes, sink.passed⟩)
    | [] => (-1, sink)

theorem Sink.honours : Honours Sink.write Sink.passed := by
  intro octets n sink hn _
  apply Outcome.modifyGet
  split
  · rename_i k writes _
    exact ⟨max 1 (min k n), by omega, rfl, fun _ => ⟨by omega, rfl⟩⟩
  · exact ⟨0, Nat.zero_le n, by simp, fun hneg => absurd hneg (show ¬ (0 : Int) ≤ -1 by decide)⟩
  · exact ⟨0, Nat.zero_le n, by simp, fun hneg => absurd hneg (show ¬ (0 : Int) ≤ -1 by decide)⟩

/-- Two octets through a block of two that passes on one at a time. -/
theorem streams_copy_iff_sink :
    (CopiesExactly Sink.passed 2 (stock [some [97, 98]])
        (geminiResponseStream Sink.write (some fun _ => 0) 0 ⟨[some [97, 98]], []⟩ 2)
        ⟨[some 1, some 1], []⟩ ∧
      CopiesExactly Sink.passed 2 (stock [some [97]])
        (requestStreamBy Sink.write (some fun _ => 0) [some [97]] 2) ⟨[some 1], []⟩) ↔
      ¬ (2 % 2 ^ 32 = 0 ∧ (some fun (_ : Nat) => (0 : UInt8)).isSome ∧ Fed [some [97, 98]]) :=
  streams_copy_iff Sink.honours Sink.honours (by decide)
    (by unfold Steady; decide) (by unfold Steady; decide) _ _ 0 _ _

/-- A block of 2^32 octets takes the end of a response to come before its first octet. -/
theorem not_copiesExactly_boundless : ¬ CopiesExactly Sink.passed (2 ^ 32) [97]
    (geminiResponseStream Sink.write (some fun _ => 0) 0 ⟨[some [97]], []⟩ (2 ^ 32))
    ⟨[some 1], []⟩ := by
  intro h
  have hsteady : Steady [some [97]] := by
    unfold Steady
    decide
  exact (geminiResponseStream_copies_iff Sink.honours (by decide) hsteady _ 0 _).1 h
    ⟨rfl, rfl, [97], [], rfl⟩

end Geminon
