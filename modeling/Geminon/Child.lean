import Geminon.Reach
import Geminon.Coupling

namespace Geminon
open Memory Descriptors Process
set_option autoImplicit true

/-- `dup2`; what the new number referred to before is closed. -/
def dup2 (outcome : Bool) (old new : Nat) : Proc World Int := do
  match (← get).fds.get old with
  | none => pure (-1)
  | some desc =>
    if !outcome then pure (-1)
    else if old = new then pure new
    else
      closeFd new
      modify fun w => { w with fds := w.fds.set new (some desc), log := w.log ++ [.opened desc] }
      pure new

/-- What the child does once it parted from its parent, and the program that it executes. -/
def cgiChild (dups : Bool) (prog : CStr) (rd wr : Nat) : Proc World (Option CStr) := do
  closeFd rd
  let rc ← dup2 dups wr 1
  if rc < 0 then pure none
  else
    closeFd wr
    pure (some prog)

/-- `cgi_handler` on the child's side; `dups` is the outcome of its `dup2`. -/
def cgiHandlerInChild (calls : Calls) (dups : Bool) (pathPrefix root : CStr) :
    Proc World (Option CStr) := do
  let file ← requestPath pathPrefix.length
  match ← checked (geminiFsPath calls.resolve calls.path root file) with
  | none => pure none
  | some prog =>
    if !calls.argv then pure none
    else if !calls.envp then pure none
    else if !calls.pipe then pure none
    else
      let rd ← openFd .pipeRead
      let wr ← openFd .pipeWrite
      if !calls.fork then pure none
      else cgiChild dups prog rd wr

/-- Those of the server, with the pipe for a standard output unless that and the input were free. -/
def programFds (t : FdTable Desc) : FdTable Desc :=
  if (t.get 0).isNone ∧ (t.get 1).isNone then t else t.set 1 (some .pipeWrite)

theorem unused_eq_zero (t : FdTable δ) (h : (t.get 0).isNone) : t.unused = 0 :=
  (Nat.find_eq_zero t.exists_unused).2 h

theorem unused_add_eq_one (t : FdTable δ) (d : δ) :
    (t.add d).unused = 1 ↔ (t.get 0).isNone ∧ (t.get 1).isNone := by
  have hadd (fd : Nat) (hne : fd ≠ t.unused) : (t.add d).get fd = t.get fd :=
    FdTable.get_set_of_ne _ _ hne
  have hself : (t.add d).get t.unused = some d := FdTable.get_set_self _ _ _
  constructor
  · intro hone
    obtain ⟨hfree, hused⟩ := (Nat.find_eq_iff (t.add d).exists_unused).1 hone
    have hone' : 1 ≠ t.unused := by
      intro he
      rw [he, hself] at hfree
      cases hfree
    rw [hadd 1 hone'] at hfree
    refine ⟨?_, hfree⟩
    by_contra hzero
    have hfirst : t.unused = 1 := by
      refine (Nat.find_eq_iff t.exists_unused).2 ⟨hfree, fun n hn => ?_⟩
      rw [Nat.lt_one_iff.1 hn]
      exact hzero
    exact hone' hfirst.symm
  · intro hfree
    obtain ⟨hzero, hone⟩ := hfree
    have hfirst := unused_eq_zero t hzero
    refine (Nat.find_eq_iff (t.add d).exists_unused).2 ⟨?_, fun n hn => ?_⟩
    · rwa [hadd 1 (by rw [hfirst]; exact Nat.one_ne_zero)]
    · rw [Nat.lt_one_iff.1 hn, ← hfirst, hself]
      exact Bool.false_ne_true

theorem closeFd_fds (w : World) (fd : Nat) :
    Outcome (closeFd fd) w (fun _ w' => w'.fds = w.fds.close fd) fun _ _ => False := by
  apply Outcome.modify
  split
  · rfl
  · rename_i hnone
    exact (FdTable.set_self _ hnone).symm

theorem openFd_both (h : Held i w fd) (desc : Desc) :
    Outcome (openFd desc) w (fun new w' => (Kept w w' [.opened desc] ∧
      w.others.get new = none ∧ w'.others = w.others.set new (some desc)) ∧
      new = w.fds.unused ∧ w'.fds = w.fds.add desc) fun _ _ => False := by
  have hfds : Outcome (openFd desc) w
      (fun new w' => new = w.fds.unused ∧ w'.fds = w.fds.add desc) fun _ _ => False :=
    .modifyGet ⟨rfl, rfl⟩
  exact ((openFd_kept (E := fun _ _ => False) h desc).and hfds).mono (fun _ _ hw' => hw')
    fun _ _ hf => hf.1

theorem dup2_fds {w : World} (hold : w.fds.get old = some desc) (outcome : Bool) (new : Nat) :
    Outcome (dup2 outcome old new) w (fun rc w' => (rc < 0 ↔ outcome = false) ∧ (outcome →
      w'.fds = if old = new then w.fds else w.fds.set new (some desc))) fun _ _ => False := by
  have hdone : ((new : Int) < 0 ↔ true = false) :=
    iff_of_false (not_lt.2 (Int.natCast_nonneg new)) Bool.noConfusion
  apply Outcome.bind
  apply Outcome.get
  rw [hold]
  cases outcome with
  | false => exact .pure ⟨iff_of_true (by decide) rfl, fun h => absurd h Bool.false_ne_true⟩
  | true =>
    dsimp only
    rw [if_neg (by decide)]
    split
    · exact .pure ⟨hdone, fun _ => rfl⟩
    · apply Outcome.andThen (closeFd_fds w new)
      intro _ w₁ hw₁
      refine .bind (.modify (.pure ⟨hdone, fun _ => ?_⟩))
      rw [hw₁, FdTable.close, FdTable.set_set]

theorem child_table (t : FdTable Desc) :
    ((if (t.add .pipeRead).unused = 1 then ((t.add .pipeRead).add .pipeWrite).close t.unused
      else (((t.add .pipeRead).add .pipeWrite).close t.unused).set 1 (some .pipeWrite)).close
        (t.add .pipeRead).unused) = programFds t := by
  have hwr := (t.add .pipeRead).get_unused
  have hread : (t.add .pipeRead).get t.unused = some .pipeRead := FdTable.get_set_self _ _ _
  have hne : t.unused ≠ (t.add .pipeRead).unused := by
    intro he
    rw [he, hwr] at hread
    cases hread
  have hclosed : ((t.add .pipeRead).add .pipeWrite).close t.unused =
      t.set (t.add .pipeRead).unused (some .pipeWrite) := by
    rw [FdTable.close, FdTable.add, FdTable.set_comm _ _ _ (Ne.symm hne)]
    exact congrArg (FdTable.set · _ _) (t.close_add .pipeRead)
  have hwr' : t.get (t.add .pipeRead).unused = none :=
    (FdTable.get_set_of_ne _ _ (Ne.symm hne)).symm.trans hwr
  rw [hclosed, programFds]
  by_cases hone : (t.add .pipeRead).unused = 1
  · rw [if_pos hone, if_pos ((unused_add_eq_one t _).1 hone), FdTable.close, FdTable.set_set,
      FdTable.set_self _ hwr']
  · rw [if_neg hone, if_neg (mt (unused_add_eq_one t _).2 hone), FdTable.set_comm _ _ _ hone,
      FdTable.close, FdTable.set_set, FdTable.set_self]
    rwa [FdTable.get_set_of_ne _ _ hone]

theorem cgiChild_fds {w : World} (t : FdTable Desc)
    (hw : w.fds = (t.add .pipeRead).add .pipeWrite) (dups : Bool) (prog : CStr) :
    Outcome (cgiChild dups prog t.unused (t.add .pipeRead).unused) w
      (fun r w' => r = (if dups then some prog else none) ∧ (dups → w'.fds = programFds t))
      fun _ _ => False := by
  have hread : (t.add .pipeRead).get t.unused = some .pipeRead := FdTable.get_set_self _ _ _
  have hne : (t.add .pipeRead).unused ≠ t.unused := by
    intro he
    rw [← he, (t.add .pipeRead).get_unused] at hread
    cases hread
  apply Outcome.andThen (closeFd_fds w t.unused)
  intro _ w₁ hw₁
  have hopen : w₁.fds.get (t.add .pipeRead).unused = some .pipeWrite := by
    rw [hw₁, hw, FdTable.close, FdTable.get_set_of_ne _ _ hne, FdTable.add, FdTable.get_set_self]
  apply Outcome.andThen (dup2_fds hopen dups 1)
  intro rc w₂ hw₂
  obtain ⟨hrc, hw₂⟩ := hw₂
  cases dups with
  | false =>
    rw [if_pos (hrc.2 rfl)]
    exact .pure ⟨rfl, fun h => absurd h Bool.false_ne_true⟩
  | true =>
    rw [if_neg (mt hrc.1 (by decide))]
    apply Outcome.andThen (closeFd_fds w₂ _)
    intro _ w₃ hw₃
    refine .pure ⟨rfl, fun _ => ?_⟩
    rw [hw₃, hw₂ rfl, hw₁, hw, child_table]

theorem parent_outcome (h : Held i w fd) (calls : Calls) (prog : CStr)
    (hwr : w.others.get wr = some desc) :
    Outcome (do
      emit (.executed prog)
      closeFd wr
      let rc ← geminiRequestStream calls.block calls.reads 8192
      if rc ≠ 0 then pure geminiHandlerAbort
      else
        geminiRequestClose
        pure geminiHandlerDone) w (fun _ w' => ∃ events,
      w'.log = w.log ++ .executed prog :: events ∧ ∀ prog', .executed prog' ∉ events)
      fun _ _ => False := by
  have hemit : ¬ (Event.executed prog).Leaks := id
  apply Outcome.andThen (emit_passed w hemit)
  intro _ w₁ hw₁
  obtain ⟨hw₁, -⟩ := hw₁
  have h₁ := h.kept hw₁.toKept
  have hwr₁ : w₁.others.get wr = some desc := by
    rw [hw₁.others_eq (not_leaky (by simp [Event.Leaks])), hwr]
  apply Outcome.andThen (closeFd_kept h₁ hwr₁)
  intro _ w₂ hw₂
  obtain ⟨hw₂, -⟩ := hw₂
  have h₂ := h₁.kept hw₂
  apply Outcome.andThen (geminiRequestStream_sent h₂.ssl calls.block calls.reads _)
  intro rc w₃ hw₃
  obtain ⟨body, hw₃, hbody⟩ := hw₃
  have hlog := ((hw₁.toKept.trans hw₂).trans hw₃.toKept).log
  have hnone (prog' : CStr) : .executed prog' ∉ body := fun hmem => by
    obtain ⟨octets, he⟩ := hbody _ hmem
    cases he
  split
  · refine .pure ⟨.closed desc :: body, hlog, fun prog' hmem => ?_⟩
    cases List.mem_cons.1 hmem with
    | inl he => cases he
    | inr hmem => exact hnone prog' hmem
  · apply Outcome.andThen (geminiRequestClose_ended (h₂.kept hw₃.toKept))
    intro _ w₄ hw₄
    obtain ⟨hw₄, -⟩ := hw₄
    refine .pure ⟨.closed desc :: body ++ [.closed (.conn i)], ?_, fun prog' hmem => ?_⟩
    · rw [hw₄.log, hlog]
      simp
    · rw [List.cons_append, List.mem_cons, List.mem_append, List.mem_singleton] at hmem
      obtain he | hmem | he := hmem
      · cases he
      · exact hnone prog' hmem
      · cases he

/-- The server and its child: which program the child executes, and with which descriptors. -/
theorem cgiHandler_child (h : Held i w fd) (ha : Asks w loc)
    (hk : pathPrefix.length ≤ loc.path.length) (calls : Calls) (dups : Bool) (root : CStr) :
    Coupled (cgiHandler calls pathPrefix root) w (cgiHandlerInChild calls dups pathPrefix root) w
      (fun _ r w' child => ∃ events, w'.log = w.log ++ events ∧
        (∀ prog, (.executed prog ∈ events ∧ dups) ↔ r = some prog) ∧
        (r.isSome → child.fds = programFds w.fds))
      fun w' child => child = w' := by
  apply Coupled.andThen (requestPath_eq ha hk).alike
  intro file file' w₀ child₀ hsame
  obtain ⟨hfile, hchild, hw₀, -⟩ := hsame
  rw [hfile, hchild, hw₀]
  refine .bind (.checked (fun r _ => ?_) ?_)
  · have habort : ∃ events, w.log = w.log ++ events ∧
        (∀ prog, (.executed prog ∈ events ∧ dups) ↔ none = some prog) ∧
        ((none : Option CStr).isSome → w.fds = programFds w.fds) := ⟨[], by simp, by simp, nofun⟩
    cases r with
    | none => exact .pure habort
    | some prog =>
    cases calls.argv with
    | false => exact .pure habort
    | true =>
    cases calls.envp with
    | false => exact .pure habort
    | true =>
    cases calls.pipe with
    | false => exact .pure habort
    | true =>
    apply Coupled.andThen (openFd_both h .pipeRead).alike
    intro rd rd' w₁ child₁ hsame
    obtain ⟨hrd, hchild, ⟨hw₁, hnone₁, htable₁⟩, hrdeq, hfds₁⟩ := hsame
    rw [hrd, hchild]
    have h₁ := h.kept hw₁
    apply Coupled.andThen (openFd_both h₁ .pipeWrite).alike
    intro wr wr' w₂ child₂ hsame
    obtain ⟨hwr, hchild, ⟨hw₂, hnone₂, htable₂⟩, hwreq, hfds₂⟩ := hsame
    rw [hwr, hchild]
    have h₂ := h₁.kept hw₂
    have hlog := (hw₁.trans hw₂).log
    cases calls.fork with
    | false =>
      exact .pure ⟨_, hlog, by simp, nofun⟩
    | true =>
      have hopen : w₂.others.get wr = some .pipeWrite := by rw [htable₂, FdTable.get_set_self]
      have hfds : w₂.fds = (w.fds.add .pipeRead).add .pipeWrite := by rw [hfds₂, hfds₁]
      have hchild := cgiChild_fds w.fds hfds dups prog
      rw [hfds₁] at hwreq
      rw [hrdeq, hwreq]
      apply ((parent_outcome h₂ calls prog (hwreq ▸ hopen)).coupled hchild).imp
      intro _ r w' child hboth
      obtain ⟨⟨events, hlog', hothers⟩, rfl, hchild⟩ := hboth
      refine ⟨_, by rw [hlog', hlog, List.append_assoc], fun prog' => ?_, fun hsome => hchild ?_⟩
      · cases dups <;> simp [hothers, eq_comm]
      · cases dups with
        | false => cases hsome
        | true => rfl
  · rfl

/-- A request that came in on descriptor 3, to a server without any standard streams. -/
def streamless (url : Sigma GeminiUrl) : World :=
  { World.entering (FdTable.empty.set 3 (some (.conn 0))) .zeroed (.zeroed _) with
    req := { GeminiRequest.zeroed with fd := 3, ssl := some ⟨0, false⟩, url := some url } }

theorem cgiHandler_child_streamless : ∃ url : Sigma GeminiUrl,
    Coupled (cgiHandler .smooth nowhere rootPrefix) (streamless url)
      (cgiHandlerInChild .smooth true nowhere rootPrefix) (streamless url)
      (fun _ r w' child => ∃ events, w'.log = (streamless url).log ++ events ∧
        (∀ prog, (.executed prog ∈ events ∧ true) ↔ r = some prog) ∧
        (r.isSome → child.fds = programFds (streamless url).fds))
      fun w' child => child = w' := by
  let malloc : UrlMalloc := fun len => some (blank len)
  have hmalloc : malloc (urlLen homeUrl) = some (blank (urlLen homeUrl)) := rfl
  have htext : homeUrl.octets = home.text := rfl
  obtain ⟨url, -, hd⟩ := geminiParseUrl_text (by decide) hmalloc htext
  exact ⟨⟨_, url⟩, cgiHandler_child ⟨rfl, rfl, rfl⟩ ⟨_, url, rfl, hd⟩ (Nat.zero_le _) _ _ _⟩

end Geminon
