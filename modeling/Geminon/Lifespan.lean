import Geminon.Site

namespace Geminon
open Memory Descriptors Process LinkedList
set_option autoImplicit true

/-- The request of a connection can be read, is a URL, and there is memory for that. -/
def Conn.Counted (conn : Conn) : Prop :=
  ∃ (line : CStr) (loc : Location), conn.Requests loc ∧ line.octets = loc.text ∧
    (conn.url (urlLen line)).isSome

open Classical in
/-- How many of some connections are counted. -/
noncomputable def counted (conns : List Conn) : Nat := conns.countP fun conn => conn.Counted

theorem counted_cons_pos (h : conn.Counted) : counted (conn :: conns) = counted conns + 1 := by
  classical
  exact List.countP_cons_of_pos (decide_eq_true h)

theorem counted_cons_neg (h : ¬ conn.Counted) : counted (conn :: conns) = counted conns := by
  classical
  exact List.countP_cons_of_neg (by rwa [decide_eq_true_iff])

/-- Where the loop of `gemini_serve` stops when it has counted to `count` before these connections:
behind the counted one that comes when the count is at its limit, and else not before `accept`
fails. A limit of zero, or one that the counter cannot exceed, is none. -/
inductive Stops (limit count : Nat) (conns : List Conn) : Int → List Conn → Prop where
  | full (front : List Conn) (last : Conn) (rest : List Conn) : conns = front ++ last :: rest →
      last.Counted → 0 < limit → limit < 2 ^ 32 - 1 → count + counted front = limit →
      Stops limit count conns 0 (front ++ [last])
  | failed : (0 < limit → limit < 2 ^ 32 - 1 → count + counted conns ≤ limit) →
      Stops limit count conns (-1) conns

theorem Stops.skip (h : Stops limit count conns rc served) (hc : ¬ conn.Counted) :
    Stops limit count (conn :: conns) rc (conn :: served) := by
  cases h with
  | full front last rest hconns hlast hpos hlow hcount =>
    refine .full (conn :: front) last rest (by rw [hconns, List.cons_append]) hlast hpos hlow ?_
    rwa [counted_cons_neg hc]
  | failed hcount =>
    refine .failed ?_
    rwa [counted_cons_neg hc]

theorem Stops.step (h : Stops limit (count + 1) conns rc served) (hc : conn.Counted) :
    Stops limit count (conn :: conns) rc (conn :: served) := by
  cases h with
  | full front last rest hconns hlast hpos hlow hcount =>
    refine .full (conn :: front) last rest (by rw [hconns, List.cons_append]) hlast hpos hlow ?_
    rw [counted_cons_pos hc]
    omega
  | failed hcount =>
    refine .failed fun hpos hlow => ?_
    rw [counted_cons_pos hc]
    have hle := hcount hpos hlow
    omega

theorem Stops.endless (h : Stops limit count conns rc served)
    (hlimit : ¬ (0 < limit ∧ limit < 2 ^ 32 - 1)) (count' : Nat) (conn : Conn) :
    Stops limit count' (conn :: conns) rc (conn :: served) := by
  cases h with
  | full _ _ _ _ _ hpos hlow => exact absurd ⟨hpos, hlow⟩ hlimit
  | failed => exact .failed fun hpos hlow => absurd ⟨hpos, hlow⟩ hlimit

section Serving
variable {verify : X509Store → X509 → Bool}

def Serving.Within (s : Serving) : Prop :=
  0 < s.server.maxRequests → s.server.requests ≤ s.server.maxRequests

theorem Stops.counted {s : Serving} (hwithin : s.Within) (hc : conn.Counted)
    (h : Stops s.server.maxRequests.toNat (s.server.requests + 1).toNat conns rc served) :
    Stops s.server.maxRequests.toNat s.server.requests.toNat (conn :: conns) rc
      (conn :: served) := by
  by_cases hlimit : 0 < s.server.maxRequests.toNat ∧ s.server.maxRequests.toNat < 2 ^ 32 - 1
  · have hrequests := UInt32.le_iff_toNat_le.1 (hwithin (UInt32.lt_iff_toNat_lt.2 hlimit.1))
    have hcount : (s.server.requests + 1).toNat = s.server.requests.toNat + 1 := by
      rw [UInt32.toNat_add, UInt32.toNat_one]
      omega
    rw [hcount] at h
    exact h.step hc
  · exact h.endless hlimit _ conn

end Serving

end Geminon
