import Geminon.Request

namespace Geminon
open Memory Search Decimal Process
set_option autoImplicit true

theorem digitOctet_eq (d : Nat) : digitOctet d = digitOf d := by
  apply UInt8.toNat_inj.1
  simp only [digitOctet, digitOf, UInt8.ofInt, UInt8.toNat_ofNat', UInt8.toNat_add]
  have hfortyEight : (48 : UInt8).toNat = 48 := rfl
  omega

theorem digitsOf_two (hlow : 10 ≤ n) (hhigh : n ≤ 99) :
    digitsOf n = [digitOf (n / 10), digitOf (n % 10)] := by
  have hten : 0 < n / 10 := Nat.div_pos hlow (by decide)
  have hsmall : n / 10 < 10 := Nat.div_lt_of_lt_mul (by omega)
  rw [digitsOf_pos (by omega), digitsOf_pos hten, Nat.div_eq_of_lt hsmall, digitsOf_zero,
    Nat.mod_eq_of_lt hsmall]
  rfl

/-- The line that stands for a status and a text, of which it has room for 250 octets. -/
def lineOf (status : Nat) (text : CStr) : List UInt8 :=
  digitsOf status ++ 32 :: (text.octets.take 250 ++ crlf)

/-- What a client makes of a status line without its end. -/
def readStatus (line : List UInt8) : Nat × List UInt8 := (value (line.take 2), line.drop 3)

/-- The process once a reply to its request has begun. -/
def World.begun (w : World) (status : Int) : World :=
  match w.req.ssl with
  | none => w
  | some ssl => { w with log := w.log ++ [.responded ssl.conn status] }

theorem statusLine_line (hlow : 10 ≤ status) (hhigh : status ≤ 99) (text : CStr) :
    ∃ buf, statusLine (status : Nat) text = .ok buf ∧ buf.Holds (lineOf status text) := by
  obtain ⟨buf, hline, hheld⟩ := statusLine_holds status text
  refine ⟨buf, hline, ?_⟩
  have hten : ((status : Int).tdiv 10).tmod 10 = ((status / 10 : Nat) : Int) := by
    rw [Int.tdiv_eq_ediv_of_nonneg (by omega), Int.tmod_eq_emod_of_nonneg (by omega)]
    omega
  have hone : (status : Int).tmod 10 = ((status % 10 : Nat) : Int) := by
    rw [Int.tmod_eq_emod_of_nonneg (by omega)]
    omega
  rw [hten, hone, digitOctet_eq, digitOctet_eq] at hheld
  rw [lineOf, digitsOf_two hlow hhigh]
  exact hheld

theorem lineOf_length (hlow : 10 ≤ status) (hhigh : status ≤ 99) (text : CStr) :
    (lineOf status text).length ≤ geminiMaxResponse := by
  have hmax : geminiMaxResponse = 256 := rfl
  rw [lineOf, digitsOf_two hlow hhigh]
  simp [crlf]
  omega

theorem geminiRequestRespond_eq (hlow : 10 ≤ status) (hhigh : status ≤ 99) (text : CStr) :
    ∃ buf : Buf geminiMaxResponse, buf.Holds (lineOf status text) ∧
      ∀ w, geminiRequestRespond (status : Nat) text w =
        geminiRequestWrite buf.octets (lineOf status text).length (w.begun (status : Nat)) := by
  obtain ⟨buf, hline, hheld⟩ := statusLine_line hlow hhigh text
  refine ⟨buf, hheld, fun w => ?_⟩
  rw [geminiRequestRespond, get_bind, World.begun]
  cases hssl : w.req.ssl with
  | none =>
    have hroom : 0 + (lineOf status text).length ≤ buf.octets.length := by
      rw [Nat.zero_add, buf.size]
      exact hheld.length_lt.le
    have hpos : 0 < (lineOf status text).length := by simp [lineOf, crlf]
    rw [geminiRequestWrite, geminiRequestWriteLoop, dif_pos hpos, loadRun, dif_pos hroom]
    change EStateM.Result.error Fault.null w = (sslWriteEx w.req.ssl _ _ >>= _) w
    rw [bind_error]
    rw [hssl]
    rfl
  | some ssl =>
    have hemit : emit (.responded ssl.conn (status : Nat)) w =
      .ok () { w with log := w.log ++ [.responded ssl.conn (status : Nat)] } := rfl
    change (emit (.responded ssl.conn (status : Nat)) >>= fun _ =>
      checked (statusLine (status : Nat) text) >>= fun buf =>
        checked buf.strlen >>= fun n => geminiRequestWrite buf.octets n) w = _
    rw [bind_ok hemit, hline, checked, pure_bind, hheld.strlen_eq, checked, pure_bind]

theorem lineOf_short {text : CStr} (hlen : text.length ≤ 250) :
    lineOf status text = digitsOf status ++ 32 :: text.octets ++ crlf := by
  rw [lineOf, List.take_of_length_le hlen]
  simp

theorem readStatus_front (hlow : 10 ≤ status) (hhigh : status ≤ 99) (octets : List UInt8) :
    readStatus (digitsOf status ++ 32 :: octets) = (status, octets) := by
  have hvalue := (digitsOf_isNumeral (n := status) (by omega)).value_eq
  rw [digitsOf_two hlow hhigh] at hvalue ⊢
  exact Prod.ext hvalue rfl

/-- What stands in front of the first line end tells the status and the text. -/
theorem readStatus_lineOf (hlow : 10 ≤ status) (hhigh : status ≤ 99) {text : CStr}
    (hlen : text.length ≤ 250) (hcr : 13 ∉ text.octets) (rest : List UInt8) :
    ∃ i, find crlf (lineOf status text ++ rest) = some i ∧
      readStatus ((lineOf status text ++ rest).take i) = (status, text.octets) := by
  have hplain : ¬ crlf <:+: digitsOf status ++ 32 :: text.octets := by
    intro hinfix
    have hmem : 13 ∈ digitsOf status ++ 32 :: text.octets := hinfix.subset (by decide)
    rw [List.mem_append, List.mem_cons] at hmem
    obtain hmem | hmem | hmem := hmem
    · exact absurd ((digitsOf_isNumeral (by omega)).isDigit 13 hmem) (by decide)
    · cases hmem
    · exact hcr hmem
  rw [lineOf_short hlen]
  refine ⟨_, find_append rest (find_crlf_append hplain), ?_⟩
  rw [List.append_assoc, List.take_left]
  exact readStatus_front hlow hhigh text.octets

/-- The reply to a request begins with a whole status line, however long its text is. -/
structure Responds (status : Nat) (text : CStr) : Prop where
  stays : ∀ fault, statusLine status text ≠ .error fault
  digits : IsNumeral (digitsOf status) status ∧ (digitsOf status).length = 2
  fits : (lineOf status text).length ≤ geminiMaxResponse
  ends : crlf <:+ lineOf status text
  handed : ∃ buf : Buf geminiMaxResponse, buf.Holds (lineOf status text) ∧
    ∀ w, geminiRequestRespond status text w =
      geminiRequestWrite buf.octets (lineOf status text).length (w.begun status)
  recovered : text.length ≤ 250 → 13 ∉ text.octets → 10 ∉ text.octets → ∀ rest, ∃ i,
    find crlf (lineOf status text ++ rest) = some i ∧
      readStatus ((lineOf status text ++ rest).take i) = (status, text.octets)

theorem geminiRequestRespond_responds (status : Nat) (hlow : 10 ≤ status) (hhigh : status ≤ 99)
    (text : CStr) : Responds status text where
  stays fault := by
    obtain ⟨buf, hline, _⟩ := statusLine_line hlow hhigh text
    rw [hline]
    exact nofun
  digits := ⟨digitsOf_isNumeral (by omega), by rw [digitsOf_two hlow hhigh]; rfl⟩
  fits := lineOf_length hlow hhigh text
  ends := ⟨digitsOf status ++ 32 :: text.octets.take 250, by simp [lineOf]⟩
  handed := geminiRequestRespond_eq hlow hhigh text
  recovered hlen hcr _ rest := readStatus_lineOf hlow hhigh hlen hcr rest

theorem geminiRequestRespond_responds_notFound : Responds 51 (.ofString "Not Found") :=
  geminiRequestRespond_responds 51 (by decide) (by decide) _

end Geminon
