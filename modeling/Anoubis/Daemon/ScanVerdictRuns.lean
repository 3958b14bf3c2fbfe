import Anoubis.Daemon.ScanVerdict
import Anoubis.Daemon.ScannerRuns

/-! What the user is told about a scan.

    However the output of a scanner, the message of the child and its bytes at the master are cut into pieces,
    nothing of it depends on the pieces. What is told depends on the outcome of each scanner that must run:

        terminated --> EINTR      all succeed --> 0      one fails --> EPERM, EAGAIN and the reports  -/

namespace Anoubis.Daemon.Scanner

open Option

open Anoubis.Lib List
open Anoubis.Daemon.Amsg (Bytes msgSize)
open Anoubis.Daemon.Sizes (Kernel host)

/-! ### What a scanner has to say -/

/-- A scanner that must run: a required one, or any if the user does not ignore recommendations. -/
def MustRun (flags : ℕ) (r : PgScanner × Attempt) : Prop := flags = 0 ∨ r.1.required = true

instance (flags : ℕ) (r : PgScanner × Attempt) : Decidable (MustRun flags r) :=
  inferInstanceAs (Decidable (_ ∨ _))

def mustRun (x : Scan) : Runs := x.runs.filter (fun r => MustRun x.flags r)

/-- The exit status; a scanner that cannot be started, or that dies from a signal, counts as 2. -/
def exitOf (r : PgScanner × Attempt) : ℕ :=
  if sameFold r.1.path (cLit "allow") then 0
  else if sameFold r.1.path (cLit "deny") then 1
  else if r.2.error.isSome then 2
  else match r.2.status with
    | .exited code => code
    | .signaled _ => 2

/-- The output up to its first NUL, and at most 1000 bytes of it; or why the scanner did not start. -/
def outputOf (r : PgScanner × Attempt) : CString :=
  if sameFold r.1.path (cLit "allow") ∨ sameFold r.1.path (cLit "deny") then []
  else (r.2.error.getD (cString r.2.output)).take textLimit

/-- The scanners that failed, in the order of the configuration. -/
def failed (x : Scan) : Runs := (mustRun x).filter (fun r => exitOf r ≠ 0)

/-- What each of them may contribute to the reply. -/
def share (x : Scan) : ℕ := 8000 / (failed x).length

/-- The description and the output, cut to a share. -/
def cutTo (share : ℕ) (r : PgScanner × Attempt) : List CString :=
  let description := r.1.description.take (share / 2 - 1)
  [description, (outputOf r).take (share - description.length - 2)]

/-- What the user shall see. -/
def reports (x : Scan) : List CString := (failed x).flatMap (cutTo (share x))

/-! ### One scanner -/

variable {text : CString} {limit n plen cnt cnt2 : ℕ} {pre : Bytes}

theorem take_full (hlen : text.length ≤ textLimit) (h0 : textLimit - text.length = 0) (rest : CString) :
    (text ++ rest).take textLimit = text := by
  rw [take_append_of_le_length (by omega), take_of_length_le hlen]

/-- The pieces do not matter. -/
theorem readOutput_text {calls : List Call} {k : ℕ} {out : Bytes} {r : CString}
    (h : readOutput none calls k out text = some r) (hlen : text.length ≤ textLimit) :
    r = (text ++ cString out).take textLimit := by
  induction calls generalizing k out text with
  | nil =>
    rw [readOutput] at h
    split at h
    · rename_i h0
      rw [← some.inj h, take_full hlen h0]
    · cases h
  | cons call calls ih =>
    by_cases h0 : textLimit - text.length = 0
    · rw [take_full hlen h0]
      cases call <;> simpa [readOutput, h0] using h.symm
    cases call with
    | again =>
      rw [readOutput, if_neg h0, if_neg (by simp)] at h
      exact ih h hlen
    | upto n =>
      rw [readOutput, if_neg h0] at h
      obtain ⟨data, rest, hout, hd, hlast⟩ : ∃ data rest, out = data ++ rest ∧
          out.take (min (n + 1) (textLimit - text.length)) = data ∧ (data = [] → rest = []) := by
        refine ⟨_, _, (take_append_drop (min (n + 1) (textLimit - text.length)) out).symm, rfl, fun hnil => ?_⟩
        rcases take_eq_nil_iff.mp hnil with hz | hz
        · omega
        · rw [hz, drop_nil]
      have hdata : data.length ≤ textLimit - text.length := by
        rw [← hd]
        exact (length_take_le _ _).trans (Nat.min_le_right _ _)
      have hle := length_cString_le data
      rw [hd] at h
      dsimp only at h
      split at h
      · rename_i hnil
        rw [← some.inj h, hout, hlast hnil, hnil, append_nil, cString, append_nil, take_of_length_le hlen]
      · split at h
        · rename_i hnul
          rw [← some.inj h, hout, cString_append, if_pos hnul, take_of_length_le]
          rw [length_append]
          omega
        · rename_i hnul
          have hlen' : (text ++ cString data).length ≤ textLimit := by
            rw [length_append]
            omega
          rw [if_neg (by simp), hout, drop_left] at h
          rw [ih h hlen', hout, cString_append, if_neg hnul, append_assoc]

/-- A scanner that is not terminated. -/
theorem scannerRun_result {s : PgScanner} {a : Attempt} {result : ScanResult}
    (h : scannerRun s a = some result) (ht : a.terminated = none) : result = ⟨s, exitOf (s, a), outputOf (s, a)⟩ := by
  rw [scannerRun] at h
  rw [exitOf, outputOf]
  dsimp only
  by_cases hallow : sameFold s.path (cLit "allow") = true
  · rw [if_pos hallow] at h
    rw [if_pos hallow, if_pos (.inl hallow)]
    exact (some.inj h).symm
  by_cases hdeny : sameFold s.path (cLit "deny") = true
  · rw [if_neg hallow, if_pos hdeny] at h
    rw [if_neg hallow, if_pos hdeny, if_pos (.inr hdeny)]
    exact (some.inj h).symm
  have hspecial : ¬ (sameFold s.path (cLit "allow") = true ∨ sameFold s.path (cLit "deny") = true) := by
    simp [hallow, hdeny]
  rw [if_neg hallow, if_neg hdeny] at h
  rw [if_neg hallow, if_neg hdeny, if_neg hspecial]
  cases he : a.error with
  | some str =>
    rw [he] at h
    exact (some.inj h).symm
  | none =>
    rw [he, ht] at h
    obtain ⟨text, htext, rfl⟩ := map_eq_some_iff.mp h
    rw [readOutput_text htext (Nat.zero_le _)]
    cases a.status with
    | exited code => simp
    | signaled sig => simp

/-! ### All scanners -/

/-- The result of a scanner that was not terminated. -/
def resultOf (r : PgScanner × Attempt) : ScanResult := ⟨r.1, exitOf r, outputOf r⟩

/-- `scanner_main` runs all scanners that must run, unless one of them is terminated. -/
theorem scanAll_spec {flags : ℕ} {runs : Runs} {results : List ScanResult} {terminate : Bool}
    (h : scanAll flags runs = some (results, terminate)) :
    (terminate = true ∧ ∃ r ∈ runs.filter (fun r => MustRun flags r), r.2.terminated.isSome) ∨
    (terminate = false ∧ (∀ r ∈ runs.filter (fun r => MustRun flags r), r.2.terminated = none) ∧
      results = (runs.filter (fun r => MustRun flags r)).map resultOf) := by
  induction runs generalizing results terminate with
  | nil =>
    cases h
    exact .inr ⟨rfl, fun r hr => (by cases hr), rfl⟩
  | cons r runs ih =>
    obtain ⟨s, a⟩ := r
    rw [scanAll] at h
    by_cases hskip : flags ≠ 0 ∧ s.required = false
    · have hmust : ¬ MustRun flags (s, a) := by simp [MustRun, hskip.1, hskip.2]
      rw [if_pos hskip] at h
      rw [filter_cons_of_neg (by simpa using hmust)]
      exact ih h
    · have hmust : MustRun flags (s, a) := by
        by_cases h0 : flags = 0
        · exact .inl h0
        · exact .inr (by simpa [h0] using hskip)
      rw [if_neg hskip] at h
      obtain ⟨result, hrun, h⟩ := bind_eq_some_iff.mp h
      rw [filter_cons_of_pos (by simpa using hmust)]
      cases ht : a.terminated with
      | some k =>
        simp only [ht, isSome_some, if_true, Option.some.injEq, Prod.mk.injEq] at h
        exact .inl ⟨h.2.symm, (s, a), mem_cons_self, by simp [ht]⟩
      | none =>
        simp only [ht, isSome_none, Bool.false_eq_true, if_false] at h
        obtain ⟨⟨results', terminate'⟩, hrest, h⟩ := map_eq_some_iff.mp h
        cases h
        rcases ih hrest with ⟨hterm, r, hr, hsome⟩ | ⟨hterm, hnone, rfl⟩
        · exact .inl ⟨hterm, r, mem_cons_of_mem _ hr, hsome⟩
        · refine .inr ⟨hterm, fun r hr => ?_, ?_⟩
          · rcases mem_cons.mp hr with rfl | hr
            · exact ht
            · exact hnone r hr
          · rw [map_cons, scannerRun_result hrun ht]
            rfl

/-- The error behind the second loop. -/
theorem foldl_nextErr (runs : Runs) {err : ℕ} (herr : err = 0 ∨ err = eperm ∨ err = eagain) :
    (runs.map resultOf).foldl nextErr err =
      if (runs.filter (fun r => exitOf r ≠ 0)).any (·.1.required) then eperm
      else if err = 0 ∧ runs.filter (fun r => exitOf r ≠ 0) ≠ [] then eagain else err := by
  induction runs generalizing err with
  | nil => simp
  | cons r runs ih =>
    rw [map_cons, foldl_cons]
    by_cases h0 : exitOf r = 0
    · have hsame : nextErr err (resultOf r) = err := if_pos h0
      rw [hsame, ih herr, filter_cons_of_neg (by simp [h0])]
    · rw [filter_cons_of_pos (by simp [h0]), any_cons]
      cases hreq : r.1.required with
      | true =>
        have hnext : nextErr err (resultOf r) = eperm := by simp [nextErr, resultOf, h0, hreq]
        rw [hnext, ih (.inr (.inl rfl))]
        simp [eperm]
      | false =>
        have hnext : nextErr err (resultOf r) = if err = 0 then eagain else err := by
          simp [nextErr, resultOf, h0, hreq]
        rw [hnext]
        by_cases hz : err = 0
        · have hfirst : err = 0 ∧ r :: runs.filter (fun r => exitOf r ≠ 0) ≠ [] := ⟨hz, cons_ne_nil _ _⟩
          rw [if_pos hz, ih (.inr (.inr rfl)), ite_self, Bool.false_or, if_pos hfirst]
        · have hlater : ∀ l : Runs, ¬ (err = 0 ∧ l ≠ []) := fun _ hc => hz hc.1
          rw [if_neg hz, ih herr, Bool.false_or, if_neg (hlater _), if_neg (hlater _)]

/-- What a failed scanner contributes are two strings. -/
theorem report_resultOf (hlimit : 100 ≤ limit) (r : PgScanner × Attempt) :
    report limit (resultOf r) = if exitOf r = 0 then [] else (cutTo limit r).flatMap cBytes := by
  rw [report, resultOf]
  dsimp only
  by_cases h0 : exitOf r = 0
  · rw [if_pos h0, if_pos h0]
  · rw [if_neg h0, if_neg h0, cutTo]
    have hdesc : r.1.description.take (min (r.1.description.length + 1) (limit / 2) - 1) =
        r.1.description.take (limit / 2 - 1) := by
      rw [take_eq_take_iff]
      omega
    have hout : (outputOf r).take (min (limit - min (r.1.description.length + 1) (limit / 2) - 1)
        (outputOf r).length) = (outputOf r).take (limit - (r.1.description.take (limit / 2 - 1)).length - 2) := by
      rw [take_eq_take_iff, length_take]
      omega
    rw [hdesc, hout, flatMap_cons, flatMap_singleton]

theorem flatMap_report (hlimit : 100 ≤ limit) (runs : Runs) : (runs.map resultOf).flatMap (report limit) =
      ((runs.filter (fun r => exitOf r ≠ 0)).flatMap (cutTo limit)).flatMap cBytes := by
  induction runs with
  | nil => rfl
  | cons r runs ih =>
    rw [map_cons, flatMap_cons, ih, report_resultOf hlimit]
    by_cases h0 : exitOf r = 0
    · rw [if_pos h0, filter_cons_of_neg (by simp [h0]), nil_append]
    · rw [if_neg h0, filter_cons_of_pos (by simp [h0]), flatMap_cons, flatMap_append]

/-- The error and the payload that the outcomes of the scanners call for. -/
inductive Verdict (x : Scan) : ℕ → Bytes → Prop
  | empty (h : x.runs = []) : Verdict x eperm []
  | terminated (h : ∃ r ∈ mustRun x, r.2.terminated.isSome) : Verdict x eintr []
  | many (h : ∀ r ∈ mustRun x, r.2.terminated = none) (hmany : 80 < (failed x).length) : Verdict x efault []
  | success (hne : x.runs ≠ []) (h : ∀ r ∈ mustRun x, r.2.terminated = none ∧ exitOf r = 0) : Verdict x 0 []
  | failure (h : ∀ r ∈ mustRun x, r.2.terminated = none) (hsome : failed x ≠ []) (hfew : (failed x).length ≤ 80) :
      Verdict x (if (failed x).any (·.1.required) then eperm else eagain) ((reports x).flatMap cBytes)

theorem div_lt_hundred (hn : n ≠ 0) : resbufSize / n < 100 ↔ 80 < n := by
  rw [resbufSize, Nat.div_lt_iff_lt_mul (Nat.pos_of_ne_zero hn)]
  omega

theorem scannerMain_verdict {x : Scan} {error : ℕ} {payload : Bytes}
    (h : scannerMain x.flags x.runs = some (error, payload)) : Verdict x error payload := by
  rw [scannerMain] at h
  by_cases hempty : x.runs = []
  · rw [if_pos hempty] at h
    cases h
    exact .empty hempty
  rw [if_neg hempty] at h
  obtain ⟨⟨results, terminate⟩, hall, h⟩ := map_eq_some_iff.mp h
  rcases scanAll_spec hall with ⟨rfl, hterm⟩ | ⟨rfl, hnot, rfl⟩
  · cases h
    exact .terminated hterm
  have hcount : ((mustRun x).map resultOf).countP (·.exitcode ≠ 0) = (failed x).length := by
    rw [countP_map, failed, countP_eq_length_filter]
    rfl
  have hmust : x.runs.filter (fun r => MustRun x.flags r) = mustRun x := rfl
  simp only [Bool.false_eq_true, if_false, hmust, hcount] at h
  by_cases hnone : failed x = []
  · -- nobody failed
    have hsucc : ∀ r ∈ mustRun x, r.2.terminated = none ∧ exitOf r = 0 := by
      intro r hr
      have hf := filter_eq_nil_iff.mp hnone r hr
      exact ⟨hnot r hr, by simpa using hf⟩
    have hpayload : ∀ limit, ((mustRun x).map resultOf).flatMap (report limit) = [] := by
      intro limit
      refine flatMap_eq_nil_iff.mpr fun result hresult => ?_
      obtain ⟨r, hr, rfl⟩ := mem_map.mp hresult
      exact if_pos (hsucc r hr).2
    rw [hnone, if_neg (by simp), hpayload, foldl_nextErr _ (.inl rfl)] at h
    have hfilter : (mustRun x).filter (fun r => exitOf r ≠ 0) = [] := hnone
    rw [hfilter] at h
    cases h
    exact .success hempty hsucc
  · have hpos : (failed x).length ≠ 0 := by simpa using hnone
    by_cases hmany : 80 < (failed x).length
    · rw [if_pos ⟨hpos, (div_lt_hundred hpos).mpr hmany⟩] at h
      cases h
      exact .many hnot hmany
    · have hlimit : ¬ resbufSize / (failed x).length < 100 := mt (div_lt_hundred hpos).mp hmany
      have hfilter : (mustRun x).filter (fun r => exitOf r ≠ 0) = failed x := rfl
      rw [if_neg fun hc => hlimit hc.2, flatMap_report (by omega), foldl_nextErr _ (.inl rfl), hfilter] at h
      cases h
      have hfirst : 0 = 0 ∧ failed x ≠ [] := ⟨rfl, hnone⟩
      rw [if_pos hfirst]
      exact .failure hnot hnone (by omega)

/-! ### The strings of the payload -/

/-- The bytes of one string move the index to the next one. -/
theorem pointers_cBytes {idx : ℕ} (hcnt : cnt2 < cnt) (s : CString) (rest : Bytes) :
    pointers plen cnt idx cnt2 (cBytes s ++ rest) =
      (if idx + s.length + 1 < plen then some (idx + s.length + 1) else none) ::
        pointers plen cnt (idx + s.length + 1) (cnt2 + 1) rest := by
  induction s generalizing idx with
  | nil =>
    have hnil : cBytes [] ++ rest = 0 :: rest := rfl
    rw [hnil, pointers, if_pos hcnt, if_pos rfl]
    rfl
  | cons c s ih =>
    have hcons : cBytes (c :: s) ++ rest = c.1 :: (cBytes s ++ rest) := rfl
    rw [hcons, pointers, if_pos hcnt, if_neg c.2, ih, length_cons, Nat.add_right_comm idx 1, add_assoc idx]

/-- The pointers to the strings behind the first one, and NULL. -/
theorem pointers_flatMap {buf : Bytes} (s : CString) (ss : List CString)
    (hbuf : buf = pre ++ (s :: ss).flatMap cBytes) (hlen : plen = buf.length) (hcnt : cnt2 + ss.length < cnt) :
    ∃ starts : List ℕ, starts.length = ss.length ∧
      pointers plen cnt pre.length cnt2 ((s :: ss).flatMap cBytes) = starts.map some ++ [none] ∧
      (pre.length :: starts).map (fun i => cString (buf.drop i)) = s :: ss := by
  induction ss generalizing pre s cnt2 with
  | nil =>
    rw [flatMap_cons, flatMap_nil] at hbuf ⊢
    have hend : ¬ pre.length + s.length + 1 < plen := by
      rw [hlen, hbuf, length_append, append_nil, length_cBytes]
      omega
    refine ⟨[], rfl, ?_, ?_⟩
    · rw [pointers_cBytes (by simpa using hcnt), if_neg hend]
      rfl
    · rw [map_cons, map_nil, cString_drop hbuf]
  | cons s' ss ih =>
    rw [flatMap_cons] at hbuf ⊢
    have hpre : (pre ++ cBytes s).length = pre.length + s.length + 1 := by
      rw [length_append, length_cBytes]
      omega
    have hbuf' : buf = (pre ++ cBytes s) ++ (s' :: ss).flatMap cBytes := by
      rw [hbuf, append_assoc]
    have hmore : pre.length + s.length + 1 < plen := by
      rw [hlen, hbuf', length_append, hpre, flatMap_cons, length_append, length_cBytes]
      omega
    have hcnt' : cnt2 + 1 + ss.length < cnt := by
      rw [length_cons] at hcnt
      omega
    obtain ⟨starts, hstarts, hptr, hmap⟩ := ih s' hbuf' hcnt'
    rw [hpre] at hptr hmap
    refine ⟨(pre.length + s.length + 1) :: starts, by rw [length_cons, hstarts, length_cons], ?_, ?_⟩
    · rw [pointers_cBytes (by omega), if_pos hmore, hptr]
      rfl
    · rw [map_cons, hmap, cString_drop hbuf]

theorem count_flatMap (ss : List CString) : (ss.flatMap cBytes).count 0 = ss.length := by
  induction ss with
  | nil => rfl
  | cons s ss ih =>
    have hs : (cBytes s).count 0 = 1 := by
      rw [cBytes, count_append, count_eq_zero_of_not_mem, count_singleton_self]
      simp
    rw [flatMap_cons, count_append, hs, ih, length_cons, add_comm]

/-- The client gets the strings back. -/
theorem pgcommitStrings_flatMap (ss : List CString) : pgcommitStrings (ss.flatMap cBytes) = ss := by
  cases ss with
  | nil => rfl
  | cons s ss =>
    rw [pgcommitStrings, parsePgcommitReply, count_flatMap]
    have hcnt : 0 + ss.length < (s :: ss).length := by simp
    have hbuf : (s :: ss).flatMap cBytes = [] ++ (s :: ss).flatMap cBytes := rfl
    obtain ⟨starts, hlen, hptr, hmap⟩ := pointers_flatMap s ss hbuf rfl hcnt
    have hlist : some 0 :: (starts.map some ++ [none]) = (0 :: starts).map some ++ [none] := rfl
    have hset : ((0 :: starts).map some ++ [none]).set (s :: ss).length none =
        (0 :: starts).map some ++ [none] := by
      rw [set_append_right _ _ (by simp [hlen]), length_map, length_cons, length_cons, hlen, Nat.sub_self]
      rfl
    have hwhile : ((0 :: starts).map some ++ [none]).takeWhile Option.isSome = (0 :: starts).map some := by
      rw [takeWhile_append_of_pos, takeWhile_cons_of_neg, append_nil]
      · simp
      · intro a ha
        obtain ⟨i, -, rfl⟩ := mem_map.mp ha
        rfl
    have hreduce : ((0 :: starts).map some).reduceOption = 0 :: starts := by
      have hfilter : ((0 :: starts).map some).reduceOption = ((0 :: starts).map some).filterMap id := rfl
      rw [hfilter, filterMap_map]
      exact filterMap_some
    rw [length_nil] at hptr hmap
    rw [hptr, hlist, hset, hwhile, hreduce, hmap]

/-! ### The message -/

theorem length_hostBytes (width n : ℕ) : (hostBytes width n).length = width := by
  induction width generalizing n with
  | zero => rfl
  | succ width ih => rw [hostBytes, length_cons, ih]

/-- A field that is read where it was written. -/
theorem host_hostBytes {m rest : Bytes} {width : ℕ} (hm : m = pre ++ (hostBytes width n ++ rest))
    (hn : n < 256 ^ width) : host m pre.length width = n := by
  have htake : (m.drop pre.length).take width = hostBytes width n := by
    rw [hm, drop_left]
    exact take_left' (length_hostBytes width n)
  rw [host, htake]
  clear htake hm
  induction width generalizing n with
  | zero =>
    rw [pow_zero] at hn
    rw [hostBytes, foldr_nil]
    omega
  | succ width ih =>
    have hdiv : n / 256 < 256 ^ width := by
      rw [Nat.div_lt_iff_lt_mul (by decide)]
      rwa [pow_succ] at hn
    rw [hostBytes, foldr_cons, ih hdiv, UInt8.toNat_ofNat']
    omega

theorem length_replyMsg (error : ℕ) (payload : Bytes) : (replyMsg error payload).length = payload.length + 24 := by
  simp only [replyMsg, length_append, length_hostBytes]
  omega

end Anoubis.Daemon.Scanner
