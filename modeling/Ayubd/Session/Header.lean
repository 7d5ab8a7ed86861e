import Ayubd.Http.Answer
import Ayubd.Session.Sessions

/-!
# Ayubd — the message header

The two io vectors of a session take what is read, then the header and the body of the response,
and then again what is read. `IOV_PRINTF` leaves the length of a text in them and `IOV_RESET` the
size of a buffer, in another file.

* **`header_invariant`** — in every state that sessions can lead to, the next round of a session
  does not fail an assertion, gives two whole buffers to `recvmsg`, and gives `sendmsg` two lengths
  between 1 and `IOV_CHUNK` whose sum `http_on_data_default` has returned.
-/

namespace Ayubd.Session

open Ayubd

/-! ## What is sent -/

/-- The text of an action begins with a letter, also when it has been cut. -/
theorem str_act_ne_nil (a : Http.Captcha) (req : Http.Req) (resp : Http.Resp) (rnd : Int32) :
    (a.act req resp rnd).1.str ≠ [] := by
  have hact : a.act req resp rnd = Http.captcha req resp rnd := by cases a <;> rfl
  rw [hact]
  have hpos : 0 < min (ascii "PATH [" ++ req.path.str ++ ascii "], RND [" ++ decInt rnd.toInt ++
      ascii "]!").length (iovChunk - 1) := by
    have hpath : (ascii "PATH [").length = 6 := by decide
    have hchunk : iovChunk = 4096 := rfl
    simp only [List.length_append]
    omega
  exact resp.scratch.str_terminate_sprintf_ne_nil (by decide) _ Http.iovChunk_pos hpos

section
variable {α : Type} {H : HttpParser} {act : α → Http.Req → Http.Resp → Int32 → Http.Resp × Bool}

variable (H act) in
/-- Where the text of a response can come from. -/
theorem str_httpRoute (route : Option (Assoc α)) (req : Http.Req) (resp : Http.Resp)
    (rnd : Int32) :
    let r := Http.httpRoute H act route req resp rnd
    r.strlen = 0 ∨ r.str = Http.noRoute ∨ r.str = Http.noAction ∨
      ∃ a req', r.str = (act a req' resp rnd).1.str := by
  simp only [Http.httpRoute]
  split
  · exact .inr (.inl rfl)
  · split
    · exact .inl rfl
    · next f hf =>
      split
      · split
        · exact .inr (.inr (.inr ⟨_, _, rfl⟩))
        · exact .inr (.inr (.inl rfl))
      · exact .inl rfl

/-- The two lengths of a response with a text. -/
theorem httpRespond_len (v0 v1 : Http.Iov) (code : Int) {str : Bytes} (hstr : str ≠ [])
    {strlen : Nat} (hpos : 0 < strlen) :
    let out := Http.httpRespond H v0 v1 code str strlen
    (1 ≤ out.1.len ∧ out.1.len ≤ iovChunk) ∧ (1 ≤ out.2.1.len ∧ out.2.1.len ≤ iovChunk) ∧
      out.1.len + out.2.1.len = out.2.2 := by
  intro out
  have hlen : ∀ (v : Http.Iov) {text : Bytes}, 0 < text.length →
      1 ≤ (v.printf text).len ∧ (v.printf text).len ≤ iovChunk := by
    intro v text htext
    exact ⟨Nat.le_min.mpr ⟨htext, Http.iovChunk_pos⟩, Nat.min_le_right _ _⟩
  have hout : out = _ := if_pos hpos
  rw [hout]
  exact ⟨hlen v0 (Http.length_hrRespIov0_pos _ _ _ _), hlen v1 (List.length_pos_iff.mpr hstr),
    Nat.add_comm _ _⟩

end

/-- What is handed to `sendmsg` when `http_on_data_default` has returned `ret`: two io vectors that
are not empty, with `ret` bytes together. -/
def Passed.Response (passed : Passed) (ret : Nat) : Prop :=
  passed.msgIovlen = 2 ∧ ∃ x0 x1, passed.vectors = [x0, x1] ∧
    (1 ≤ x0.iovLen ∧ x0.iovLen ≤ iovChunk) ∧ (1 ≤ x1.iovLen ∧ x1.iovLen ≤ iovChunk) ∧
    x0.iovLen + x1.iovLen = ret

section
variable {H : HttpParser} {route : Option (Assoc Http.Captcha)} {rnd : Int32} {passed : Passed}
  {ret : Nat}

theorem Sends.response (h : Sends H Http.Captcha.act route rnd passed ret) :
    passed.Response ret := by
  obtain ⟨hret, hlen, x0, x1, hvectors, v0, v1, req, resp, hl0, hl1, hsum⟩ := h
  refine ⟨hlen, x0, x1, hvectors, ?_⟩
  rw [hl0, hl1, hsum]
  -- without a length nothing is formatted and nothing is sent
  have hpos : 0 < (Http.httpRoute H Http.Captcha.act route req resp rnd).strlen := by
    by_contra hzero
    have hnone : ret = 0 := by
      rw [hsum]
      unfold Http.httpRespond
      rw [if_neg hzero]
    omega
  refine httpRespond_len v0 v1 _ ?_ hpos
  rcases str_httpRoute H Http.Captcha.act route req resp rnd with
    hzero | hstr | hstr | ⟨a, req', hstr⟩
  · exact absurd hzero hpos.ne'
  · rw [hstr]
    decide
  · rw [hstr]
    decide
  · rw [hstr]
    exact str_act_ne_nil a req' resp rnd

end

/-! ## Every round -/

section
variable {H : HttpParser} {w : World} {id : Nat} {hook : Hook}

/-- **The message header**, at the calls of any round of any session, in every state that sessions
can lead to: `recvmsg` is given two whole buffers, `sendmsg` the two parts of a response, and no
assertion fails. -/
theorem header_invariant (hw : (sessions H Http.Captcha.act).Reachable w)
    (hsession : w.sessions id = some hook) (m : Malloc) (route : Option (Assoc Http.Captcha))
    (recv : Http.Recv) (behind : Bytes) (rnd : Int32) :
    ∃ w' hook' calls, w.data H Http.Captcha.act m id hook route recv behind rnd = some (w', calls) ∧
      w'.sessions id = some hook' ∧ calls.recv.Whole ⟨id, w'.mem, hook'⟩ ∧
      ∀ passed ret, calls.send = some (passed, ret) → passed.Response ret := by
  obtain ⟨p, calls, hround, hgood, -, -, hwhole, hsends⟩ :=
    ((inv_of_reachable hw).ok id hook hsession).hookOnDataTest H Http.Captcha.act m route recv
      behind rnd
  obtain rfl : p.id = id := hgood.id
  refine ⟨w.put p, p.hook, calls, ?_, w.sessions_put_self p, hwhole,
    fun passed ret hsend => (hsends passed ret hsend).response⟩
  unfold World.data
  rw [hround]
  rfl

/-- The second round of a session, when the first has left the lengths of a response in the io
vectors: they are whole again for `recvmsg`, and the response to an unknown path is sent. -/
theorem header_invariant_second :
    ∃ w hook w' hook' calls passed ret,
      (sessions .getOnly Http.Captcha.act).run (.start fun _ => .zero)
        [.accept .bump 7, .data .bump 7 (some Http.routes) askApp [] 5] = some w ∧
      w.sessions 7 = some hook ∧
      w.data .getOnly Http.Captcha.act .bump 7 hook (some Http.routes) askNope [] 6 =
        some (w', calls) ∧
      w'.sessions 7 = some hook' ∧ calls.recv.Whole ⟨7, w'.mem, hook'⟩ ∧
      calls.send = some (passed, ret) ∧ passed.Response ret := by
  have hrun : (((sessions .getOnly Http.Captcha.act).run (.start fun _ => .zero)
      [.accept .bump 7, .data .bump 7 (some Http.routes) askApp [] 5]).bind fun w =>
        (w.sessions 7).bind fun hook => (w.data .getOnly Http.Captcha.act .bump 7 hook
          (some Http.routes) askNope [] 6).map fun out => out.2.send.isSome) = some true := by
    decide +kernel
  obtain ⟨w, hw, hrun⟩ := Option.bind_eq_some_iff.mp hrun
  obtain ⟨hook, hsession, hrun⟩ := Option.bind_eq_some_iff.mp hrun
  have hreach : (sessions .getOnly Http.Captcha.act).Reachable w :=
    System.Reachable.run (.init ⟨_, rfl⟩) hw
  obtain ⟨w', hook', calls, hdata, hsession', hwhole, hresponse⟩ :=
    header_invariant hreach hsession .bump (some Http.routes) askNope [] 6
  rw [hdata, Option.map_some, Option.some.injEq] at hrun
  obtain ⟨⟨passed, ret⟩, hsend⟩ := Option.isSome_iff_exists.mp hrun
  exact ⟨w, hook, w', hook', calls, passed, ret, hw, hsession, hdata, hsession', hwhole, hsend,
    hresponse passed ret hsend⟩

end

end Ayubd.Session
