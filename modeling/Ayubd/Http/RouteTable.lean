import Ayubd.Http.Answer

/-!
# Ayubd — the shared route table

All sessions look their paths up in the one array that `module_start` filled. The lookup is
`_aget`, which creates a blank entry for a key it does not find, so serving a path without
an action writes to the table. `table_unchanged_iff` says when the table stays as
`module_start` left it; the entries that do appear never dispatch (`serve_spec`).
-/

namespace Ayubd.Http

open Ayubd

/-! ## Any number of sessions -/

/-- The shared table and the sessions. -/
structure World where
  table : Assoc Captcha
  sessions : Nat → Session

/-- The module after `module_start`. -/
def World.start : World := ⟨routes, fun _ => Session.fresh⟩

def World.serve (H : HttpParser) (w : World) (i : Nat) (r : Read) : Option World :=
  (Http.serve H w.table (w.sessions i) r).map fun out =>
    ⟨out.route.getD w.table, Function.update w.sessions i out.session⟩

def World.run (H : HttpParser) : World → List (Nat × Read) → Option World
  | w, [] => some w
  | w, (i, r) :: es =>
    match w.serve H i r with
    | none => none
    | some w => w.run H es

/-- After these reads the table has the keys, the size and the values it started with. -/
def Unchanged (H : HttpParser) (es : List (Nat × Read)) : Prop :=
  ∃ w, World.start.run H es = some w ∧ w.table.Same routes

section
variable {H : HttpParser}

/-- One read: the table after the lookup of the session's URL. -/
theorem World.serve_spec {w : World} (hT : Routes w.table) (i : Nat) (r : Read) :
    ∃ w', w.serve H i r = some w' ∧ Routes w'.table ∧
      w'.table = tableAfter H w.table ((w.sessions i).memo.heard H r).url ∧
      (w'.sessions i).memo.url = ((w.sessions i).memo.heard H r).url ∧
      ∀ j, j ≠ i → w'.sessions j = w.sessions j := by
  obtain ⟨out, hout, hserved⟩ := Http.serve_spec (H := H) hT (w.sessions i) r
  refine ⟨_, by rw [serve, hout, Option.map_some], ?_, ?_, ?_, ?_⟩
  · rw [hserved.route]
    exact hT.tableAfter _
  · rw [hserved.route, Option.getD_some]
  · simp only [Function.update_self, hserved.memo, Memo.settled]
  · intro j hj
    exact Function.update_of_ne hj _ _

/-! ## What a lookup does to the table -/

theorem pathOf_nil : pathOf H [] = none := by
  unfold pathOf
  cases hf : H.parseUrl [] with
  | none => rfl
  | some f =>
    have hin := (H.parseUrl_inBounds hf).path
    rw [List.length_nil] at hin
    simp only
    rw [if_neg (by omega)]

/-- A request for a route adds nothing to the table. -/
theorem tableAfter_of_known {url : Bytes} (h : ask H url ≠ .unknown) :
    tableAfter H routes url = routes := by
  unfold ask askPath at h
  unfold tableAfter
  cases hpath : pathOf H url with
  | none => rfl
  | some path =>
    simp only [hpath] at h ⊢
    refine Assoc.arrayGet_of_mem (mem_routes.mpr fun hval => h ?_)
    simp only [hval]

/-- A request for an unknown path adds a key. -/
theorem mem_tableAfter_of_unknown (table : Assoc Captcha) {url : Bytes}
    (h : ask H url = .unknown) : ∃ k, k ∉ routes ∧ k ∈ tableAfter H table url := by
  unfold ask askPath at h
  cases hpath : pathOf H url with
  | none => simp only [hpath, reduceCtorEq] at h
  | some path =>
    simp only [hpath] at h
    refine ⟨cstr path, fun hmem => ?_, ?_⟩
    · obtain ⟨a, ha⟩ := Option.ne_none_iff_exists'.mp (mem_routes.mp hmem)
      simp only [ha, reduceCtorEq] at h
    · simp only [tableAfter, hpath]
      exact Assoc.mem_arrayGet.mpr (Or.inl rfl)

/-- No request takes a key out of the table. -/
theorem mem_tableAfter {table : Assoc Captcha} {url k : Bytes} (h : k ∈ table) :
    k ∈ tableAfter H table url := by
  unfold tableAfter
  split
  · exact h
  · exact Assoc.mem_arrayGet.mpr (Or.inr h)

/-! ## Whole runs -/

/-- As long as no read reports an unknown path, no session carries one and the table is the one
of `module_start`. -/
theorem World.run_of_known {w : World} {es : List (Nat × Read)} (htable : w.table = routes)
    (hcarry : ∀ i, ask H (w.sessions i).memo.url ≠ .unknown)
    (hes : ∀ e ∈ es, ∀ url, e.2.url H = some url → ask H url ≠ .unknown) :
    ∃ w', w.run H es = some w' ∧ w'.table = routes := by
  induction es generalizing w with
  | nil => exact ⟨w, rfl, htable⟩
  | cons e es ih =>
    obtain ⟨i, r⟩ := e
    obtain ⟨w', hserve, -, htable', hurl, hother⟩ :=
      w.serve_spec (H := H) (by rw [htable]; exact routes_self) i r
    -- a read without a URL is answered for the one the session carries
    have hheard : ask H ((w.sessions i).memo.heard H r).url ≠ .unknown := by
      rw [Memo.heard]
      cases hr : r.url H with
      | none => exact hcarry i
      | some url => exact hes (i, r) List.mem_cons_self url hr
    have hnext : w'.table = routes := by rw [htable', htable, tableAfter_of_known hheard]
    have hcarry' : ∀ j, ask H (w'.sessions j).memo.url ≠ .unknown := by
      intro j
      by_cases hj : j = i
      · rw [hj, hurl]
        exact hheard
      · rw [hother j hj]
        exact hcarry j
    obtain ⟨w'', hrun, hdone⟩ := ih hnext hcarry' fun e he => hes e (List.mem_cons_of_mem _ he)
    exact ⟨w'', by simp only [run, hserve, hrun], hdone⟩

/-- No run takes a key out of the table. -/
theorem World.mem_run {w w' : World} {es : List (Nat × Read)} {k : Bytes} (hT : Routes w.table)
    (hrun : w.run H es = some w') (hk : k ∈ w.table) : k ∈ w'.table := by
  induction es generalizing w with
  | nil =>
    cases hrun
    exact hk
  | cons e es ih =>
    obtain ⟨i, r⟩ := e
    obtain ⟨w₁, hserve, hT₁, htable, -, -⟩ := w.serve_spec (H := H) hT i r
    simp only [run, hserve] at hrun
    exact ih hT₁ hrun (by rw [htable]; exact mem_tableAfter hk)

/-- A run with an unknown path leaves a key which was not configured. -/
theorem World.mem_run_of_unknown {w w' : World} {es : List (Nat × Read)} (hT : Routes w.table)
    (hrun : w.run H es = some w') {e : Nat × Read} (he : e ∈ es) {url : Bytes}
    (hurl : e.2.url H = some url) (hask : ask H url = .unknown) :
    ∃ k, k ∉ routes ∧ k ∈ w'.table := by
  induction es generalizing w with
  | nil => cases he
  | cons e' es ih =>
    obtain ⟨i, r⟩ := e'
    obtain ⟨w₁, hserve, hT₁, htable, -, -⟩ := w.serve_spec (H := H) hT i r
    simp only [run, hserve] at hrun
    rcases List.mem_cons.mp he with rfl | hmem
    · have hheard : ((w.sessions i).memo.heard H r).url = url := by
        simp only [Memo.heard, hurl, Option.getD_some]
      rw [hheard] at htable
      obtain ⟨k, hnew, hk⟩ := mem_tableAfter_of_unknown w.table hask
      exact ⟨k, hnew, mem_run hT₁ hrun (by rw [htable]; exact hk)⟩
    · exact ih hT₁ hrun hmem

end

/-- A read that reports an unknown path changes the table for good. -/
theorem not_unchanged_of_unknown {H : HttpParser} {es : List (Nat × Read)} {e : Nat × Read}
    (he : e ∈ es) {url : Bytes} (hurl : e.2.url H = some url) (hask : ask H url = .unknown) :
    ¬ Unchanged H es := by
  rintro ⟨w, hrun, hkeys, -⟩
  obtain ⟨k, hnew, hk⟩ := World.mem_run_of_unknown (w := World.start) routes_self hrun he hurl hask
  exact hnew ((hkeys k).mp hk)

/-- **When serving leaves the route table alone**: no read reports a URL whose path has no
action. -/
theorem table_unchanged_iff (H : HttpParser) (es : List (Nat × Read)) :
    Unchanged H es ↔ ∀ e ∈ es, ∀ url, e.2.url H = some url → ask H url ≠ .unknown := by
  constructor
  · intro h e he url hurl hask
    exact not_unchanged_of_unknown he hurl hask h
  · intro h
    have hcarry : ∀ i, ask H (World.start.sessions i).memo.url ≠ .unknown := by
      intro i
      have hurl : (World.start.sessions i).memo.url = [] := rfl
      simp only [hurl, ask, pathOf_nil, ne_eq, reduceCtorEq, not_false_eq_true]
    obtain ⟨w, hrun, htable⟩ := World.run_of_known (w := World.start) rfl hcarry h
    refine ⟨w, hrun, ?_⟩
    rw [htable]
    exact ⟨fun _ => Iff.rfl, rfl, fun _ => rfl⟩

def strayRead : Read where
  bytes := ascii "GET /nope HTTP/1.1\r\n\r\n"
  behind := []
  rnd := 0
  pos := by decide
  fits := by decide

/-- A single request for an unknown path changes the table. -/
theorem stray_changes_table : ¬ Unchanged .getOnly [(0, strayRead)] := by
  have hurl : strayRead.url .getOnly = some (ascii "/nope") := by decide
  exact not_unchanged_of_unknown List.mem_cons_self hurl (by decide)

end Ayubd.Http
