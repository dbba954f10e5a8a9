import Geminon.Request

namespace Geminon
open Memory Process
set_option autoImplicit true

/-- How many of `m` octets a partial write takes that would take `k`. -/
def takes (k m : Nat) : Nat := max 1 (min k m)

def FailsNext : List (Option Nat) → Prop
  | some _ :: _ => False
  | _ => True

/-- Every short write takes half of what it is given, or more and is followed by a failure. -/
def Halves (m : Nat) : List (Option Nat) → Prop
  | some k :: writes =>
    m ≤ takes k m ∨ (m = 2 * takes k m ∧ Halves (m - takes k m) writes) ∨
      (m ≤ 2 * takes k m ∧ FailsNext writes)
  | _ => True

def World.Partial (w : World) (i : Nat) : Prop := w.req.ssl = some ⟨i, true⟩

section Loop
variable {w : World} {buf octets : List UInt8} {i k n cursor ntotal : Nat}
  {writes : List (Option Nat)}

theorem takes_bounds (k : Nat) (hn : 0 < n) : 1 ≤ takes k n ∧ takes k n ≤ n := by
  rw [takes]
  omega

def World.wrote (w : World) (i : Nat) (octets : List UInt8) : World :=
  { w with writes := w.writes.tail, log := w.log ++ [.sent i octets] }

theorem World.Partial.wrote (h : w.Partial i) (octets : List UInt8) :
    (w.wrote i octets).Partial i := h

theorem wrote_writes (hw : w.writes = some k :: writes) (octets : List UInt8) :
    (w.wrote i octets).writes = writes := by
  rw [World.wrote, hw]
  rfl

theorem sslWriteEx_takes (hssl : w.Partial i) (hpos : 0 < octets.length)
    (hw : w.writes = some k :: writes) :
    ∃ taken, taken.1 = takes k octets.length ∧ sslWriteEx w.req.ssl octets hpos w =
      .ok (some taken) (w.wrote i (octets.take (takes k octets.length))) := by
  refine ⟨⟨takes k octets.length, takes_bounds k hpos⟩, rfl, ?_⟩
  rw [show w.req.ssl = _ from hssl]
  simp only [sslWriteEx, modifyGet_apply, hw, World.wrote]
  rfl

theorem sslWriteEx_fails (hssl : w.Partial i) (hpos : 0 < octets.length)
    (hw : FailsNext w.writes) :
    ∃ w', sslWriteEx w.req.ssl octets hpos w = .ok none w' ∧ w'.log = w.log := by
  rw [show w.req.ssl = _ from hssl]
  simp only [sslWriteEx, modifyGet_apply]
  cases hwrites : w.writes with
  | nil => exact ⟨w, rfl, rfl⟩
  | cons outcome writes =>
    cases outcome with
    | none => exact ⟨_, rfl, rfl⟩
    | some k =>
      rw [hwrites] at hw
      exact hw.elim

theorem writeLoop_done : geminiRequestWriteLoop buf cursor 0 ntotal w = .ok ntotal w := by
  rw [geminiRequestWriteLoop]
  rfl

theorem writeLoop_out (hn : 0 < n) (h : buf.length < cursor + n) :
    geminiRequestWriteLoop buf cursor n ntotal w = .error (.load buf.length) w := by
  rw [geminiRequestWriteLoop, dif_pos hn, loadRun, dif_neg (Nat.not_le.2 h)]
  rfl

theorem run_length (h : cursor + n ≤ buf.length) : ((buf.drop cursor).take n).length = n := by
  rw [List.length_take, List.length_drop]
  omega

theorem writeLoop_fails (hssl : w.Partial i) (hn : 0 < n) (h : cursor + n ≤ buf.length)
    (hw : FailsNext w.writes) :
    ∃ w', geminiRequestWriteLoop buf cursor n ntotal w = .ok (-1) w' ∧ w'.log = w.log := by
  have hpos : 0 < ((buf.drop cursor).take n).length := by rwa [run_length h]
  obtain ⟨w', hwrite, hlog⟩ := sslWriteEx_fails hssl hpos hw
  refine ⟨w', ?_, hlog⟩
  rw [geminiRequestWriteLoop, dif_pos hn, loadRun, dif_pos h]
  simp only [checked, pure_bind]
  rw [get_bind, bind_ok hwrite]
  rfl

theorem writeLoop_takes (hssl : w.Partial i) (hn : 0 < n) (h : cursor + n ≤ buf.length)
    (hw : w.writes = some k :: writes) :
    geminiRequestWriteLoop buf cursor n ntotal w =
      geminiRequestWriteLoop buf (cursor + (n - takes k n)) (n - takes k n) (ntotal + takes k n)
        (w.wrote i ((buf.drop cursor).take (takes k n))) := by
  have hlen := run_length h
  have hpos : 0 < ((buf.drop cursor).take n).length := by rwa [hlen]
  obtain ⟨⟨j, hj, hjn⟩, hj', hwrite⟩ := sslWriteEx_takes hssl hpos hw
  change j = _ at hj'
  have hsent : ((buf.drop cursor).take n).take (takes k ((buf.drop cursor).take n).length) =
      (buf.drop cursor).take (takes k n) := by
    rw [hlen, List.take_take, Nat.min_eq_left (takes_bounds k hn).2]
  rw [hsent] at hwrite
  rw [hlen] at hj'
  rw [geminiRequestWriteLoop, dif_pos hn, loadRun, dif_pos h]
  simp only [checked, pure_bind]
  rw [get_bind, bind_ok hwrite]
  change geminiRequestWriteLoop buf (cursor + (n - j)) (n - j) (ntotal + j) _ = _
  rw [hj']

/-- The rest of a write hands over what goes on from `cursor`, and all of it if it succeeds. -/
def HandsOver (w : World) (i : Nat) (buf : List UInt8) (cursor total : Nat)
    (run : EStateM.Result Fault World Int) : Prop :=
  ∃ (rc : Int) (w' : World) (pieces : List (List UInt8)), run = .ok rc w' ∧
    w'.log = w.log ++ pieces.map (.sent i) ∧ pieces.flatten <+: buf.drop cursor ∧
    (0 ≤ rc → rc = total ∧ pieces.flatten = buf.drop cursor)

theorem handsOver_none {w' : World} (hlog : w'.log = w.log) :
    HandsOver w i buf cursor total (.ok (-1) w') := by
  refine ⟨-1, w', [], rfl, by simp [hlog], List.nil_prefix, ?_⟩
  intro hneg
  omega

theorem handsOver_all (h : buf.length ≤ cursor) :
    HandsOver w i buf cursor total (.ok (total : Nat) w) := by
  refine ⟨total, w, [], rfl, by simp, List.nil_prefix, ?_⟩
  intro _
  rw [List.drop_of_length_le h]
  exact ⟨rfl, rfl⟩

theorem take_append_initial (j : Nat) (l s : List α) : l.take j ++ s <+: l ↔ s <+: l.drop j := by
  have h : l.take j ++ s <+: l.take j ++ l.drop j ↔ s <+: l.drop j :=
    List.prefix_append_right_inj (l.take j)
  rwa [List.take_append_drop] at h

theorem take_append_eq (j : Nat) (l s : List α) : l.take j ++ s = l ↔ s = l.drop j := by
  have h : l.take j ++ s = l.take j ++ l.drop j ↔ s = l.drop j :=
    List.append_right_inj (l.take j)
  rwa [List.take_append_drop] at h

theorem HandsOver.cons {run : EStateM.Result Fault World Int}
    (h : HandsOver (w.wrote i ((buf.drop cursor).take j)) i buf (cursor + j) total run) :
    HandsOver w i buf cursor total run := by
  obtain ⟨rc, w', pieces, hrun, hlog, hinitial, hall⟩ := h
  rw [← List.drop_drop] at hinitial hall
  refine ⟨rc, w', (buf.drop cursor).take j :: pieces, hrun, ?_, ?_, ?_⟩
  · rw [hlog, World.wrote, List.map_cons, List.append_assoc, List.singleton_append]
  · exact (take_append_initial j _ _).2 hinitial
  · intro hrc
    exact ⟨(hall hrc).1, (take_append_eq j _ _).2 (hall hrc).2⟩

theorem handsOver_of_halves (hssl : w.Partial i) (h : cursor + n = buf.length)
    (hw : Halves n w.writes) : HandsOver w i buf cursor (ntotal + n)
      (geminiRequestWriteLoop buf cursor n ntotal w) := by
  induction hwrites : w.writes generalizing w cursor n ntotal with
  | nil =>
    rcases Nat.eq_zero_or_pos n with rfl | hn
    · rw [writeLoop_done]
      exact handsOver_all (Nat.le_of_eq h.symm)
    · obtain ⟨w', hloop, hlog⟩ := writeLoop_fails hssl hn (Nat.le_of_eq h) (hwrites ▸ trivial)
      rw [hloop]
      exact handsOver_none hlog
  | cons outcome writes ih =>
    rcases Nat.eq_zero_or_pos n with rfl | hn
    · rw [writeLoop_done]
      exact handsOver_all (Nat.le_of_eq h.symm)
    cases outcome with
    | none =>
      obtain ⟨w', hloop, hlog⟩ := writeLoop_fails hssl hn (Nat.le_of_eq h) (hwrites ▸ trivial)
      rw [hloop]
      exact handsOver_none hlog
    | some k =>
      have hj := takes_bounds k hn
      rw [hwrites, Halves] at hw
      rw [writeLoop_takes hssl hn (Nat.le_of_eq h) hwrites]
      apply HandsOver.cons (j := takes k n)
      obtain hall | ⟨hhalf, hrest⟩ | ⟨hhalf, hfails⟩ := hw
      · rw [show n - takes k n = 0 by omega, writeLoop_done, show takes k n = n by omega]
        exact handsOver_all (Nat.le_of_eq h.symm)
      · have hnext : cursor + (n - takes k n) = cursor + takes k n := by omega
        rw [hnext, show ntotal + n = ntotal + takes k n + (n - takes k n) by omega]
        have hwrites' := wrote_writes (i := i) hwrites ((buf.drop cursor).take (takes k n))
        exact ih (hssl.wrote _) (by omega) (by rwa [hwrites']) hwrites'
      · rcases Nat.eq_zero_or_pos (n - takes k n) with hzero | hpos
        · rw [hzero, writeLoop_done, show takes k n = n by omega]
          exact handsOver_all (Nat.le_of_eq h.symm)
        · have hwrites' := wrote_writes (i := i) hwrites ((buf.drop cursor).take (takes k n))
          have hroom : cursor + (n - takes k n) + (n - takes k n) ≤ buf.length := by omega
          have hnext : FailsNext (w.wrote i ((buf.drop cursor).take (takes k n))).writes := by
            rwa [hwrites']
          obtain ⟨w', hloop, hlog⟩ := writeLoop_fails (hssl.wrote _) hpos hroom hnext
          rw [hloop]
          exact handsOver_none hlog

theorem writeLoop_sends (hssl : w.Partial i) {rc : Int} {w' : World}
    (hrun : geminiRequestWriteLoop buf cursor n ntotal w = .ok rc w') :
    ∃ pieces : List (List UInt8), w'.log = w.log ++ pieces.map (.sent i) := by
  induction hwrites : w.writes generalizing w cursor n ntotal with
  | nil =>
    rcases Nat.eq_zero_or_pos n with rfl | hn
    · rw [writeLoop_done] at hrun
      cases hrun
      exact ⟨[], by simp⟩
    rcases Nat.lt_or_ge buf.length (cursor + n) with hout | hin
    · rw [writeLoop_out hn hout] at hrun
      cases hrun
    · obtain ⟨w'', hloop, hlog⟩ := writeLoop_fails hssl hn hin (hwrites ▸ trivial)
      rw [hloop] at hrun
      cases hrun
      exact ⟨[], by simp [hlog]⟩
  | cons outcome writes ih =>
    rcases Nat.eq_zero_or_pos n with rfl | hn
    · rw [writeLoop_done] at hrun
      cases hrun
      exact ⟨[], by simp⟩
    rcases Nat.lt_or_ge buf.length (cursor + n) with hout | hin
    · rw [writeLoop_out hn hout] at hrun
      cases hrun
    cases outcome with
    | none =>
      obtain ⟨w'', hloop, hlog⟩ := writeLoop_fails hssl hn hin (hwrites ▸ trivial)
      rw [hloop] at hrun
      cases hrun
      exact ⟨[], by simp [hlog]⟩
    | some k =>
      rw [writeLoop_takes hssl hn hin hwrites] at hrun
      obtain ⟨pieces, hlog⟩ := ih (hssl.wrote _) hrun (wrote_writes hwrites _)
      refine ⟨(buf.drop cursor).take (takes k n) :: pieces, ?_⟩
      rw [hlog, World.wrote, List.map_cons, List.append_assoc, List.singleton_append]

theorem sent_cons (hssl : w.Partial i) {rc : Int} {w' : World}
    (hrun : geminiRequestWriteLoop buf cursor n ntotal (w.wrote i octets) = .ok rc w')
    {pieces : List (List UInt8)} (hlog : w'.log = w.log ++ pieces.map (.sent i)) :
    ∃ pieces' : List (List UInt8), pieces = octets :: pieces' ∧
      w'.log = (w.wrote i octets).log ++ pieces'.map (.sent i) := by
  obtain ⟨pieces', hlog'⟩ := writeLoop_sends (hssl.wrote octets) hrun
  refine ⟨pieces', ?_, hlog'⟩
  have hinj : Function.Injective (Event.sent i) := by
    intro octets octets' he
    cases he
    rfl
  have hall : pieces.map (Event.sent i) = (octets :: pieces').map (.sent i) := by
    apply List.append_cancel_left (hlog.symm.trans _)
    rw [hlog', World.wrote, List.map_cons, List.append_assoc, List.singleton_append]
  exact hinj.list_map hall

theorem HandsOver.tail (hssl : w.Partial i)
    (h : HandsOver w i buf cursor total (geminiRequestWriteLoop buf cursor' n ntotal
      (w.wrote i ((buf.drop cursor).take j)))) :
    HandsOver (w.wrote i ((buf.drop cursor).take j)) i buf (cursor + j) total
      (geminiRequestWriteLoop buf cursor' n ntotal (w.wrote i ((buf.drop cursor).take j))) := by
  obtain ⟨rc, w', pieces, hrun, hlog, hinitial, hall⟩ := h
  obtain ⟨pieces', rfl, hlog'⟩ := sent_cons hssl hrun hlog
  refine ⟨rc, w', pieces', hrun, hlog', ?_, ?_⟩
  · rw [← List.drop_drop]
    exact (take_append_initial j _ _).1 hinitial
  · intro hrc
    rw [← List.drop_drop]
    exact ⟨(hall hrc).1, (take_append_eq j _ _).1 (hall hrc).2⟩

theorem not_handsOver_misplaced (hssl : w.Partial i) (hw : w.writes = some k :: writes)
    (hn : 0 < n) (hin : cursor + n ≤ buf.length) (hmark : buf[place]? = some 1)
    (hblank : buf[cursor]? = some 0) :
    ¬ HandsOver w i buf place total (geminiRequestWriteLoop buf cursor n ntotal w) := by
  intro h
  rw [writeLoop_takes hssl hn hin hw] at h
  obtain ⟨rc, w', pieces, hrun, hlog, ⟨rest, hinitial⟩, _⟩ := h
  obtain ⟨pieces', rfl, -⟩ := sent_cons hssl hrun hlog
  have hj := takes_bounds k hn
  have hlt : 0 < ((buf.drop cursor).take (takes k n)).length := by
    rw [List.length_take, List.length_drop]
    omega
  have hfirst := congrArg (·[0]?) hinitial
  simp only [List.flatten_cons, List.append_assoc] at hfirst
  rw [List.getElem?_append_left hlt, List.getElem?_take_of_lt (by omega), List.getElem?_drop,
    List.getElem?_drop, Nat.add_zero, Nat.add_zero, hmark, hblank] at hfirst
  cases hfirst

/-- A write that is not halved hands over the wrong octets of some buffer, or reads past it. -/
theorem exists_not_handsOver (hw : ¬ Halves n writes) (cursor : Nat) :
    ∃ buf : List UInt8, buf.length = cursor + n ∧ ∀ w total ntotal, w.Partial i →
      w.writes = writes → ¬ HandsOver w i buf cursor total
        (geminiRequestWriteLoop buf cursor n ntotal w) := by
  induction writes generalizing n cursor with
  | nil => exact absurd trivial hw
  | cons outcome writes ih =>
    cases outcome with
    | none => exact absurd trivial hw
    | some k =>
      rw [Halves, not_or, not_or] at hw
      obtain ⟨hpart, hhalf, hlast⟩ := hw
      have hn : 0 < n := by omega
      have hj := takes_bounds k hn
      rcases Nat.lt_trichotomy n (2 * takes k n) with hmore | hsame | hless
      · refine ⟨(List.replicate (cursor + n) 0).set (cursor + takes k n) 1, by simp, ?_⟩
        intro w total ntotal hssl hwrites h
        rw [writeLoop_takes hssl hn (by simp) hwrites] at h
        have hrest := wrote_writes (i := i) hwrites
          ((((List.replicate (cursor + n) 0).set (cursor + takes k n) 1).drop cursor).take
            (takes k n))
        cases writes with
        | nil => exact hlast ⟨Nat.le_of_lt hmore, trivial⟩
        | cons outcome writes =>
          cases outcome with
          | none => exact hlast ⟨Nat.le_of_lt hmore, trivial⟩
          | some k' =>
            apply not_handsOver_misplaced (hssl.wrote _) hrest (by omega) _ _ _ (h.tail hssl)
            · rw [List.length_set, List.length_replicate]
              omega
            · rw [List.getElem?_set_self (by rw [List.length_replicate]; omega)]
            · rw [List.getElem?_set_ne (by omega), List.getElem?_replicate, if_pos (by omega)]
      · have hrest : ¬ Halves (n - takes k n) writes := fun hrest => hhalf ⟨hsame, hrest⟩
        obtain ⟨buf, hlen, hbad⟩ := ih hrest (cursor + takes k n)
        refine ⟨buf, by omega, ?_⟩
        intro w total ntotal hssl hwrites h
        rw [writeLoop_takes hssl hn (by omega) hwrites,
          show cursor + (n - takes k n) = cursor + takes k n by omega] at h
        exact hbad _ total (ntotal + takes k n) (hssl.wrote _) (wrote_writes hwrites _)
          (h.tail hssl)
      · refine ⟨List.replicate (cursor + n) 0, List.length_replicate, ?_⟩
        intro w total ntotal hssl hwrites h
        rw [writeLoop_takes hssl hn (by simp) hwrites,
          writeLoop_out (by omega) (by simp; omega)] at h
        obtain ⟨rc, w', pieces, hrun, _⟩ := h
        cases hrun

end Loop

/-- A write that takes the octets of its buffer in order, and counts them all if it succeeds. -/
def Delivers (w : World) (i : Nat) (buf : List UInt8) : Prop :=
  ∃ (rc : Int) (w' : World) (pieces : List (List UInt8)),
    geminiRequestWrite buf buf.length w = .ok rc w' ∧ w'.log = w.log ++ pieces.map (.sent i) ∧
    pieces.flatten <+: buf ∧ (0 ≤ rc → rc = buf.length ∧ pieces.flatten = buf)

theorem delivers_of_halves {w : World} (hssl : w.Partial i) {buf : List UInt8}
    (h : Halves buf.length w.writes) : Delivers w i buf := by
  have hover : HandsOver w i buf 0 (0 + buf.length)
      (geminiRequestWriteLoop buf 0 buf.length 0 w) :=
    handsOver_of_halves hssl (Nat.zero_add buf.length) h
  rwa [Nat.zero_add] at hover

theorem halves_of_delivers {w : World} (hssl : w.Partial i)
    (h : ∀ buf : List UInt8, buf.length = n → Delivers w i buf) : Halves n w.writes := by
  apply Classical.byContradiction
  intro hw
  obtain ⟨buf, hlen, hbad⟩ := exists_not_handsOver (i := i) hw 0
  rw [Nat.zero_add] at hlen
  subst n
  exact hbad w buf.length 0 hssl rfl (h buf rfl)

/-- A buffer is delivered just if each short write takes half, or is followed by a failure. -/
theorem delivers_iff_halves {w : World} (hssl : w.Partial i) (n : Nat) :
    (∀ buf : List UInt8, buf.length = n → Delivers w i buf) ↔ Halves n w.writes := by
  constructor
  · exact halves_of_delivers hssl
  · intro h buf hlen
    subst n
    exact delivers_of_halves hssl h

def replying (writes : List (Option Nat)) : World where
  fds := .empty
  accepted := 1
  incoming := ⟨[], []⟩
  writes := writes
  calls := []
  req := { GeminiRequest.zeroed with ssl := some ⟨0, true⟩ }
  buf := .zeroed _
  log := []

theorem replying_mode (writes : List (Option Nat)) : (replying writes).Partial 0 := rfl

theorem delivers_iff_halves_replying :
    (∀ buf : List UInt8, buf.length = 4 → Delivers (replying [some 2, some 2]) 0 buf) ↔
      Halves 4 [some 2, some 2] :=
  delivers_iff_halves (replying_mode _) 4

/-- Of three octets two are taken, and then the second of them once more. -/
theorem not_delivers_replying :
    ¬ ∀ buf : List UInt8, buf.length = 3 → Delivers (replying [some 2, some 1]) 0 buf := by
  intro h
  have hhalves : Halves 3 [some 2, some 1] := halves_of_delivers (replying_mode _) h
  simp [Halves, takes, FailsNext] at hhalves

end Geminon
