import Xv6.Volume.Filewrite

/-!
# `lseek` past the end of a file

`sys_lseek` fills the gap by calls of `filewrite` with one zeroed page.  The writes go to the
offset of the file, not to its end, and a call for more than a page reads on behind the page.
-/

namespace Xv6.Volume

open Xv6.Lib Xv6.Fs Xv6.Files Xv6.Sched

variable {a : LogArea} {g : Layout a} {w w' : World}

section Fill

variable {s : Sys} {f : FileId} {i : Nat} {p : Slot} {src : Nat → UInt8} {n : Nat}

variable (p src) in
/-- The calls of `filewrite` leave alone what is below the offset of the file, and all of it
when the offset is beyond the end. -/
theorem fillFrom_run (hroom : Roomy g) (fuel : Nat) (h : Ready g s f i w) (zerosize : Int) :
    ∃ s' w', (fillFrom a p f src fuel zerosize).run s = .ok ((), s') ∧ Ready g s' f i w' ∧
      (s'.file f).ip = (s.file f).ip ∧
      (∀ k < (s.file f).off, (w'.image.content i)[k]? = (w.image.content i)[k]?) ∧
      ((w.image.node i).size < (s.file f).off → w'.image.content i = w.image.content i) := by
  induction fuel generalizing s w zerosize with
  | zero => exact ⟨s, w, rfl, h, rfl, fun _ _ => rfl, fun _ => rfl⟩
  | succ fuel ih =>
    by_cases hpos : 0 < zerosize
    · obtain ⟨n, rfl⟩ := Int.eq_ofNat_of_zero_le hpos.le
      obtain ⟨m, _, s₁, w₁, hwrote, hrun, _, hnone⟩ := filewrite_run p src n hroom h
      obtain ⟨s₂, w₂, hrest, hready, hip, hbelow, hsame⟩ := ih hwrote.ready (n - 4096)
      refine ⟨s₂, w₂, ?_, hready, hip.trans hwrote.ip, fun k hk => ?_, fun hlt => ?_⟩
      · rw [fillFrom, if_pos hpos]
        exact (Prog.run_bind_of_ok hrun).trans hrest
      · rw [hbelow k (by rw [hwrote.off]; omega), hwrote.content]
        by_cases hoff : (s.file f).off ≤ (w.image.node i).size
        · exact getElem?_overwrite_of_lt (by rwa [length_content]) hk
        · rw [hnone (by omega)]
          exact congrArg (·[k]?) overwrite_nil
      · have hm := hnone hlt
        subst hm
        have hcontent : w₁.image.content i = w.image.content i :=
          hwrote.content.trans overwrite_nil
        have hsize : (w₁.image.node i).size < (s₁.file f).off := by
          rw [hwrote.off, ← length_content, hcontent, length_content]
          exact hlt
        rw [hsame hsize, hcontent]
    · refine ⟨s, w, ?_, h, rfl, fun _ _ => rfl, fun _ => rfl⟩
      rw [fillFrom, if_neg hpos]
      rfl

variable (p src n) in
theorem fillFrom_first (hroom : Roomy g) (h : Ready g s f i w) (fuel : Nat) (hn : 0 < n)
    (hoff : (s.file f).off ≤ (w.image.node i).size)
    (hmax : (s.file f).off + n ≤ MAXFILE * BSIZE) :
    ∃ s₁ w₁, Wrote g f i src n s w s₁ w₁ ∧
      (fillFrom a p f src (fuel + 1) n).run s = (fillFrom a p f src fuel (n - 4096)).run s₁ := by
  obtain ⟨m, _, s₁, w₁, hwrote, hrun, hall, _⟩ := filewrite_run p src n hroom h
  obtain rfl := hall hoff hmax
  refine ⟨s₁, w₁, hwrote, ?_⟩
  rw [fillFrom, if_pos (by omega)]
  exact Prog.run_bind_of_ok hrun

end Fill

/-! ## The call -/

/-- What `lseek` is to do with a target beyond the end of the file: whatever is in the memory
behind the zeroed page, the file has zeros from its end up to the target.  `page` says whether
there is a page for the zeros. -/
def ExtendSpec (a : LogArea) (s : Sys) (p : Slot) (fd offset base : Int) (page : Bool)
    (f : FileId) (t : Nat) : Prop :=
  ∀ m : Unset, m.page = page → ∃ s', (sysLseek a p fd offset base m).run s = .ok (0, s') ∧
    (s'.file f).off = t ∧
    contentOf s'.fs (s.file f).ip =
      contentOf s.fs (s.file f).ip ++ List.replicate (t - fileSize s f) 0

section Spec

variable {s s' : Sys} {f : FileId} {i : Nat} {p : Slot} {fd offset base : Int} {t : Nat}

theorem seekTo_run {size : Nat} {m : Unset} (hlt : size < t) (hmax : t ≤ MAXFILE * BSIZE)
    (hpage : m.page = true)
    (hfill : (fillFrom a p f (zeroPage m.src) (t - size) (t - size : Nat)).run s = .ok ((), s')) :
    (seekTo a p f size t m).run s = .ok (0, s'.setFile f { s'.file f with off := t }) := by
  have hsmall : MAXFILE * BSIZE < 2 ^ 31 := by decide
  have hbmod : Int.bmod ((t : Int) - size) (2 ^ 32) = (t - size : Nat) := by
    rw [Int.bmod_eq_of_le (by omega) (by omega)]
    omega
  unfold seekTo
  rw [Prog.when, if_pos hlt, hbmod, hpage]
  exact Prog.run_bind_of_ok (Prog.run_bind_of_ok hfill)

theorem fillFrom_once (p : Slot) (src : Nat → UInt8) {n : Nat} (hroom : Roomy g)
    (h : Ready g s f i w) (hn : 0 < n) (hle : n ≤ 4096)
    (hoff : (s.file f).off ≤ (w.image.node i).size)
    (hmax : (s.file f).off + n ≤ MAXFILE * BSIZE) :
    ∃ s' w', Wrote g f i (zeroPage src) n s w s' w' ∧
      (fillFrom a p f (zeroPage src) n n).run s = .ok ((), s') := by
  obtain ⟨m, rfl⟩ : ∃ m, n = m + 1 := ⟨n - 1, by omega⟩
  obtain ⟨s', w', hwrote, hfirst⟩ := fillFrom_first p (zeroPage src) (m + 1) hroom h m hn hoff hmax
  refine ⟨s', w', hwrote, hfirst.trans ?_⟩
  cases m with
  | zero => rfl
  | succ m =>
    rw [fillFrom, if_neg (by omega)]
    rfl

section Call

variable (hfile : inodeFile s p fd = some f) (htarget : seekTarget s f offset base = some (t : Int))
  (hlt : fileSize s f < t) (hmax : t ≤ MAXFILE * BSIZE)
include hfile htarget hlt hmax

theorem sysLseek_target (m : Unset) :
    (sysLseek a p fd offset base m).run s = (seekTo a p f (fileSize s f) t m).run s := by
  have hsmall : MAXFILE * BSIZE < 2 ^ 32 := by decide
  have hoff : (newoff (s.file f) (fileSize s f) offset base m.newoff % 2 ^ 32).toNat = t := by
    rw [newoff_of_target htarget]
    omega
  rw [sysLseek_run hfile hoff, if_neg (by omega)]

theorem ExtendSpec.page_eq {page : Bool} (hspec : ExtendSpec a s p fd offset base page f t) :
    page = true := by
  obtain ⟨s₁, hrun, _⟩ := hspec ⟨0, 0, page, fun _ => 0⟩ rfl
  rw [sysLseek_target hfile htarget hlt hmax] at hrun
  exact seekTo_page hlt hrun

theorem ExtendSpec.content (hspec : ExtendSpec a s p fd offset base true f t) (h : Ready g s f i w)
    {src : Nat → UInt8}
    (hfill : (fillFrom a p f (zeroPage src) (t - fileSize s f) (t - fileSize s f : Nat)).run s =
      .ok ((), s')) (h' : Ready g s' f i w') (hip : (s'.file f).ip = (s.file f).ip) :
    w'.image.content i = w.image.content i ++ List.replicate (t - fileSize s f) 0 := by
  obtain ⟨s₁, hrun, _, hcontent⟩ := hspec ⟨0, 0, true, src⟩ rfl
  rw [sysLseek_target hfile htarget hlt hmax, seekTo_run hlt hmax rfl hfill] at hrun
  obtain rfl : _ = s₁ := by simpa using hrun
  change contentOf s'.fs _ = _ at hcontent
  rwa [h.contentOf_eq, ← hip, h'.contentOf_eq] at hcontent

theorem ExtendSpec.off_le (hspec : ExtendSpec a s p fd offset base true f t) (hroom : Roomy g)
    (h : Ready g s f i w) : (s.file f).off ≤ fileSize s f := by
  by_contra hbeyond
  obtain ⟨s', w', hfill, hready, hip, _, hsame⟩ := fillFrom_run p
    (zeroPage fun _ => 0) hroom (t - fileSize s f) h (t - fileSize s f : Nat)
  have hcontent := hspec.content hfile htarget hlt hmax h hfill hready hip
  rw [hsame (by rw [← h.fileSize_eq]; omega)] at hcontent
  have hlen := congrArg List.length hcontent
  rw [List.length_append, List.length_replicate] at hlen
  omega

theorem ExtendSpec.gap_le (hspec : ExtendSpec a s p fd offset base true f t) (hroom : Roomy g)
    (h : Ready g s f i w) : t - fileSize s f ≤ 4096 := by
  by_contra hgap
  have hoff := hspec.off_le hfile htarget hlt hmax hroom h
  have hsize := h.fileSize_eq
  -- the byte that has to be at offset 4096 of what is written
  obtain ⟨x, hx⟩ : ∃ x, (w.image.content i ++
      List.replicate (t - fileSize s f) 0)[(s.file f).off + 4096]? = some x := by
    refine ⟨_, List.getElem?_eq_getElem ?_⟩
    rw [List.length_append, List.length_replicate, length_content]
    omega
  obtain ⟨s₁, w₁, hwrote, hfirst⟩ := fillFrom_first p (zeroPage fun _ => x + 1)
    (t - fileSize s f) hroom h (t - fileSize s f - 1) (by omega) (by omega) (by omega)
  obtain ⟨s₂, w₂, hfill, hready, hip, hbelow, _⟩ := fillFrom_run p
    (zeroPage fun _ => x + 1) hroom (t - fileSize s f - 1) hwrote.ready
    ((t - fileSize s f : Nat) - 4096)
  rw [← hfirst, Nat.sub_add_cancel (by omega)] at hfill
  have hcontent := hspec.content hfile htarget hlt hmax h hfill hready (hip.trans hwrote.ip)
  have hbyte := hbelow ((s.file f).off + 4096) (by rw [hwrote.off]; omega)
  rw [hcontent, hx, hwrote.content, getElem?_overwrite (by rw [length_content]; omega)
    (by rw [List.length_map, List.length_range]; omega)] at hbyte
  have hnext : x = x + 1 := by
    rw [List.getElem?_map, List.getElem?_range (by omega)] at hbyte
    exact Option.some.inj hbyte
  simp at hnext

theorem ExtendSpec.off_eq (hspec : ExtendSpec a s p fd offset base true f t) (hroom : Roomy g)
    (h : Ready g s f i w) : (s.file f).off = fileSize s f := by
  have hgap := hspec.gap_le hfile htarget hlt hmax hroom h
  have hoff := hspec.off_le hfile htarget hlt hmax hroom h
  have hsize := h.fileSize_eq
  obtain ⟨s', w', hwrote, hfill⟩ := fillFrom_once p (fun _ => 0) hroom h (by omega) hgap
    (by omega) (by omega)
  have hcontent := hspec.content hfile htarget hlt hmax h hfill hwrote.ready hwrote.ip
  have hlen := congrArg List.length hcontent
  rw [length_content, hwrote.size (by omega), List.length_append, List.length_replicate,
    length_content] at hlen
  omega

theorem extendSpec_of_eq (hroom : Roomy g) (h : Ready g s f i w)
    (hoff : (s.file f).off = fileSize s f) (hgap : t - fileSize s f ≤ 4096) :
    ExtendSpec a s p fd offset base true f t := by
  intro m hpage
  have hsize := h.fileSize_eq
  obtain ⟨s', w', hwrote, hfill⟩ := fillFrom_once p m.src hroom h (by omega) hgap
    (by omega) (by omega)
  refine ⟨_, (sysLseek_target hfile htarget hlt hmax m).trans
    (seekTo_run hlt hmax hpage hfill), ?_, ?_⟩
  · change (Function.update s'.file f _ f).off = t
    rw [Function.update_self]
  · have hzeros : (List.range (t - fileSize s f)).map (zeroPage m.src) =
        List.replicate (t - fileSize s f) 0 := by
      rw [List.eq_replicate_iff, List.length_map, List.length_range]
      refine ⟨rfl, fun b hb => ?_⟩
      obtain ⟨k, hk, rfl⟩ := List.mem_map.1 hb
      exact if_pos (by rw [List.mem_range] at hk; omega)
    change contentOf s'.fs _ = _
    rw [← hwrote.ip, hwrote.ready.contentOf_eq, hwrote.content, hwrote.ip, h.contentOf_eq, hoff,
      hsize, ← length_content, overwrite_end, length_content, ← hsize, hzeros]

end Call

end Spec

end Xv6.Volume
