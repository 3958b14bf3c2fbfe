import Anoubis.Lib.Reads
import Mathlib.Data.Int.Notation

/-! The signature of a policy file (`anoubis_sig.c`).

    A policy file comes with a file `.sig`. Both are read piece by piece: the pieces of the policy go into the digest
    one behind the other, the pieces of the signature all go to the start of its buffer. What is verified is the
    buffer, whatever the length of the file.

        file    1 2 3 4 │ 5 6         size 4, pieces of 4 and 2 bytes
        buffer  5 6 3 4

    Out of memory and calls of read(2) that fail are left out. -/

namespace Anoubis.Sig

open Anoubis.Lib List

abbrev Bytes := List UInt8

/-- A key, its size as EVP_PKEY_size returns it, and `EVP_VerifyFinal` on the digested bytes and a signature. -/
structure EvpPkey where
  size : ℕ
  verifyFinal : Bytes → Bytes → ℤ

/-! ### Verifying -/

/-- `anoubis_sig_verify_policy`, for a file that may not be there. It is `none` if it does not return. -/
def anoubisSigVerifyPolicy (policy : Option (Source UInt8)) (sigbuf : Bytes) (key : EvpPkey) : Option ℤ :=
  match policy with
  | none => some (-6)
  | some f => (f.eachRead 1024 (· ++ ·) (f.rest.length + 1) []).map fun digested =>
    if key.verifyFinal digested sigbuf = -1 then -8 else key.verifyFinal digested sigbuf

/-- A piece at the start of the buffer. -/
def readSig (sigbuf piece : Bytes) : Bytes := piece ++ sigbuf.drop piece.length

/-- `anoubis_sig_verify_policy_file`. -/
def anoubisSigVerifyPolicyFile (policy sigfile : Option (Source UInt8)) (key : EvpPkey) : Option ℤ :=
  match sigfile with
  | none => some (-2)
  | some f => (f.eachRead key.size readSig (f.rest.length + 1) (List.replicate key.size 0)).bind fun sigbuf =>
    anoubisSigVerifyPolicy policy sigbuf key

/-- The file is a signature of the policy, and this is what the code says. -/
def Verifies (policy : Source UInt8) (sigfile : Source UInt8) (key : EvpPkey) : Prop :=
  anoubisSigVerifyPolicyFile (some policy) (some sigfile) key = some 1 ↔
    sigfile.rest.length = key.size ∧ key.verifyFinal policy.rest sigfile.rest = 1

/-- The first call returns a file of `n` bytes at once. -/
def AtOnce (n : ℕ) (cuts : List ℕ) : Prop := ∀ c ∈ cuts.head?, n ≤ c + 1

/-! ### The buffer -/

variable {size : ℕ} {policy sigfile : Source UInt8} {key : EvpPkey}

/-- All of the policy is digested, and the answer is 1 where the buffer is a signature of it. -/
theorem verifyPolicy_iff (policy : Source UInt8) (sigbuf : Bytes) (key : EvpPkey) :
    anoubisSigVerifyPolicy (some policy) sigbuf key = some 1 ↔ key.verifyFinal policy.rest sigbuf = 1 := by
  rw [anoubisSigVerifyPolicy]
  rw [policy.eachRead_append (by decide), nil_append, Option.map_some, Option.some_inj]
  split
  · rename_i h
    rw [h]
    decide
  · exact .rfl

/-- The buffer at the end, from what every piece keeps. -/
theorem sigbuf_rule (size : ℕ) (sigfile : Source UInt8) {I : Bytes → Source UInt8 → Prop}
    (hstep : ∀ b f, I b f → (f.read size).1 ≠ [] → I (readSig b (f.read size).1) (f.read size).2)
    (h0 : I (List.replicate size 0) sigfile) :
    ∃ sigbuf f, I sigbuf f ∧ (f.read size).1 = [] ∧ ∀ policy verifyFinal,
      (anoubisSigVerifyPolicyFile (some policy) (some sigfile) ⟨size, verifyFinal⟩ = some 1 ↔
        verifyFinal policy.rest sigbuf = 1) := by
  obtain ⟨sigbuf, f, heq, hI, hnil⟩ := Source.eachRead_rule readSig hstep h0 (Nat.lt_succ_self _)
  refine ⟨sigbuf, f, hI, hnil, fun policy verifyFinal => ?_⟩
  rw [anoubisSigVerifyPolicyFile]
  dsimp only
  rw [heq, Option.bind_some]
  exact verifyPolicy_iff policy sigbuf ⟨size, verifyFinal⟩

/-- The buffer and the file before the first piece, and behind the only one. -/
def ReadAtOnce (size : ℕ) (sigfile : Source UInt8) (sigbuf : Bytes) (f : Source UInt8) : Prop :=
  (sigbuf = List.replicate size 0 ∧ f = sigfile) ∨ (sigbuf = sigfile.rest ∧ f.rest = [])

theorem readAtOnce_step (hfirst : (sigfile.read size).1 = sigfile.rest) (hlen : sigfile.rest.length = size)
    {sigbuf : Bytes} {f : Source UInt8} (h : ReadAtOnce size sigfile sigbuf f) (hne : (f.read size).1 ≠ []) :
    ReadAtOnce size sigfile (readSig sigbuf (f.read size).1) (f.read size).2 := by
  rcases h with ⟨rfl, rfl⟩ | ⟨-, hrest⟩
  · refine .inr ⟨?_, ?_⟩
    · rw [readSig, hfirst, hlen, drop_replicate, Nat.sub_self, replicate_zero, append_nil]
    · have := f.length_read size
      rw [hfirst] at this
      exact eq_nil_of_length_eq_zero (by omega)
  · exact absurd (by rw [Source.read, hrest, take_nil]) hne

/-- A file that is read at once is the buffer. -/
theorem verifies_atOnce (h : AtOnce size sigfile.cuts) (hlen : sigfile.rest.length = size) (policy : Source UInt8)
    (verifyFinal : Bytes → Bytes → ℤ) : Verifies policy sigfile ⟨size, verifyFinal⟩ := by
  have hfirst : (sigfile.read size).1 = sigfile.rest := by
    refine take_of_length_le ?_
    rw [hlen, Source.limit]
    split
    · exact Nat.le_refl size
    · rename_i c cuts hcuts
      exact Nat.le_min.mpr ⟨Nat.le_refl size, h c (by rw [hcuts]; rfl)⟩
  obtain ⟨sigbuf, f, hI, hnil, hiff⟩ := sigbuf_rule size sigfile
    (fun _ _ hI hne => readAtOnce_step hfirst hlen hI hne) (.inl ⟨rfl, rfl⟩)
  have hbuf : sigbuf = sigfile.rest := by
    rcases hI with ⟨rfl, rfl⟩ | ⟨hbuf, -⟩
    · rw [hfirst] at hnil
      have hsize : size = 0 := by rw [← hlen, hnil]; rfl
      rw [hnil, hsize]
      rfl
    · exact hbuf
  rw [Verifies, hiff, hbuf]
  exact (and_iff_right hlen).symm

/-- The last byte of the buffer is 0, and the next piece does not get there. -/
structure Unfilled (size : ℕ) (sigbuf : Bytes) (f : Source UInt8) : Prop where
  length : sigbuf.length = size
  last : sigbuf.getLast? = some 0
  rest : f.rest.length ≤ size
  piece : (f.read size).1.length < size

theorem unfilled_step {sigbuf : Bytes} {f : Source UInt8} (h : Unfilled size sigbuf f) (hne : (f.read size).1 ≠ []) :
    Unfilled size (readSig sigbuf (f.read size).1) (f.read size).2 := by
  have hread := f.length_read size
  have hpos := length_pos_of_ne_nil hne
  have hrest := h.rest
  have hpiece := h.piece
  refine ⟨?_, ?_, by omega, ?_⟩
  · rw [readSig, length_append, length_drop, h.length]
    omega
  · have hdrop : sigbuf.drop (f.read size).1.length ≠ [] := by simp [h.length, hpiece]
    have hlast := h.last
    rw [readSig, getLast?_append_of_ne_nil _ hdrop, getLast?_drop, h.length, if_neg (by omega), hlast]
  · have := ((f.read size).2).length_read size
    omega

/-- Without a piece of the full size the last byte of the buffer is still 0. -/
theorem sigbuf_last (sigfile : Source UInt8) (h : ¬ AtOnce size sigfile.cuts) (hlen : sigfile.rest.length = size) :
    ∃ sigbuf, sigbuf.getLast? = some 0 ∧ ∀ policy verifyFinal,
      (anoubisSigVerifyPolicyFile (some policy) (some sigfile) ⟨size, verifyFinal⟩ = some 1 ↔
        verifyFinal policy.rest sigbuf = 1) := by
  obtain ⟨c, hc, hshort⟩ : ∃ c ∈ sigfile.cuts.head?, c + 1 < size := by simpa [AtOnce] using h
  have hfirst : sigfile.limit size < size := by
    obtain ⟨cuts, hcuts⟩ := head?_eq_some_iff.mp hc
    rw [Source.limit, hcuts]
    exact Nat.lt_of_le_of_lt (Nat.min_le_right _ _) hshort
  have hstart : Unfilled size (List.replicate size 0) sigfile := by
    refine ⟨length_replicate, ?_, Nat.le_of_eq hlen, ?_⟩
    · rw [getLast?_replicate, if_neg (by omega)]
    · rw [Source.read, length_take]
      exact Nat.lt_of_le_of_lt (Nat.min_le_left _ _) hfirst
  obtain ⟨sigbuf, f, hI, -, hiff⟩ := sigbuf_rule size sigfile (fun _ _ hI hne => unfilled_step hI hne) hstart
  exact ⟨sigbuf, hI.last, hiff⟩

/-- `anoubis_sig_verify_policy_file` answers 1 for the signatures of the policy and for no other file, whatever the
    key verifies and whatever the two files hold: for a file `.sig` of the size of a signature, read at once. -/
theorem verify_policy_file_iff (size length : ℕ) (cuts : List ℕ) :
    (∀ sig : Bytes, sig.length = length → ∀ policy verifyFinal, Verifies policy ⟨sig, cuts⟩ ⟨size, verifyFinal⟩) ↔
      length = size ∧ AtOnce size cuts := by
  refine ⟨fun h => ?_, fun ⟨hlen, honce⟩ sig hsig policy verifyFinal => ?_⟩
  · have hlen : length = size := by
      -- a key that verifies everything
      obtain ⟨sigbuf, f, -, -, hiff⟩ := sigbuf_rule size ⟨List.replicate length 0, cuts⟩
        (I := fun _ _ => True) (fun _ _ _ _ => trivial) trivial
      have hv := h (List.replicate length 0) List.length_replicate ⟨[], []⟩ fun _ _ => 1
      have hsize := (hv.mp ((hiff _ _).mpr rfl)).1
      rwa [List.length_replicate] at hsize
    refine ⟨hlen, Classical.byContradiction fun hcut => ?_⟩
    -- a key that verifies one signature, without a zero
    obtain ⟨sigbuf, hlast, hiff⟩ := sigbuf_last ⟨List.replicate length 1, cuts⟩ hcut
      (by rw [List.length_replicate, hlen])
    have hv := h (List.replicate length 1) List.length_replicate ⟨[], []⟩
      fun _ sig => if sig = List.replicate length 1 then 1 else 0
    have hone := (hiff _ _).mp (hv.mpr ⟨by rw [List.length_replicate, hlen], if_pos rfl⟩)
    have hsig : sigbuf = List.replicate length 1 := by simpa using hone
    rw [hsig, List.getLast?_replicate] at hlast
    split at hlast <;> cases hlast
  · exact verifies_atOnce honce (hsig.trans hlen) policy verifyFinal

/-- A file of 64 bytes, the second half a signature of the policy. -/
theorem verify_policy_file_appended :
    ¬ Verifies ⟨[112, 97, 115, 115], []⟩ ⟨List.replicate 32 0 ++ List.replicate 32 7, []⟩
      ⟨32, fun policy sig => if policy = [112, 97, 115, 115] ∧ sig = List.replicate 32 7 then 1 else 0⟩ := by
  rw [Verifies]
  decide +kernel

end Anoubis.Sig
