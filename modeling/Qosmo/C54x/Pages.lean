import Qosmo.C54x.Run

/-!
# Qosmo.C54x.Pages

Program memory in pages. Reads go by `c54x_prog_xlate`: 0x8000 to 0xDFFF is banked by XPC, and with
OVLY set 0x0060 to 0x27FF is data memory. `prog_write` stores into the word that a read of the same
page and address designates, and behind it always into the word of page 0 as well. On one page that
makes no difference, since page 0 is then not read at this address; from another page it does.
-/

namespace Qosmo.C54x

/-! ### Pages -/

def Cpu.onPage (s : Cpu) (p : Word) : Cpu := { s with xpc := p }

def pageWord (p a : Word) : BitVec 18 :=
  if 0x8000 ≤ a ∧ (a < 0xE000 ∨ xpcHautBanque p) then (p.setWidth 18 <<< 16) ||| a.setWidth 18
  else a.setWidth 18

theorem progFetch_onPage (s : Cpu) (p a : Word) : progFetch (s.onPage p) a =
    if inOverlay s a then s.data a else s.prog (pageWord p a) := rfl

theorem overlay_lt {s : Cpu} {a : Word} (h : inOverlay s a) : a < 0x2800 := by
  simp only [inOverlay, Bool.and_eq_true, decide_eq_true_eq] at h
  exact h.2

theorem pageWord_zero (a : Word) : pageWord 0 a = a.setWidth 18 := by
  unfold pageWord
  split
  · simp
  · rfl

theorem pageWord_of_lt {a : Word} (p : Word) (ha : a < 0x8000) : pageWord p a = a.setWidth 18 :=
  if_neg fun h => absurd h.1 (by bv_omega)

theorem pageWord_of_banked {a : Word} (p : Word) (ha : a < 0xE000) (hhigh : 0x8000 ≤ a) :
    pageWord p a = (p.setWidth 18 <<< 16) ||| a.setWidth 18 := if_pos ⟨hhigh, .inl ha⟩

theorem getLsbD_pageWord {a : Word} (p : Word) (ha : a < 0xE000) (hhigh : 0x8000 ≤ a) {k : Nat}
    (hk : k < 2) : (pageWord p a).getLsbD (16 + k) = p.getLsbD k := by
  have hlt : 16 + k < 18 := by omega
  rw [pageWord_of_banked p ha hhigh]
  simp [hlt]

theorem pageWord_ne_zero {p a : Word} (hp : p ≤ 3) (hp0 : p ≠ 0) (ha : a < 0xE000)
    (hhigh : 0x8000 ≤ a) : pageWord p a ≠ a.setWidth 18 := by
  intro h
  have hbit : ∀ k < 2, p.getLsbD k = false := by
    intro k hk
    rw [← getLsbD_pageWord p ha hhigh hk, h]
    simp
  rcases (by bv_omega : p = 1 ∨ p = 2 ∨ p = 3) with rfl | rfl | rfl
  · exact absurd (hbit 0 (by decide)) (by decide)
  · exact absurd (hbit 1 (by decide)) (by decide)
  · exact absurd (hbit 0 (by decide)) (by decide)

/-! ### Reading behind a write -/

section ProgWrite

variable {s : Cpu} {a : Word} (ha : a < 0xE000) (v : Word)
include ha

theorem progWrite_eq : progWrite s a v = { s with
    prog := fun w => if w = pageWord s.xpc a ∨ w = a.setWidth 18 then v else s.prog w
    data := fun x => if inOverlay s a ∧ x = a then v else s.data x } := by
  have hlow : ¬ 0xE000 ≤ a := by bv_omega
  have hdata : ∀ b : Bool, (if b then setData s a v else s) =
      { s with data := fun x => if b ∧ x = a then v else s.data x } := by
    intro b
    cases b with
    | false => simp
    | true =>
      simp only [if_true, setData, true_and]
      congr 1
      funext x
      exact Function.update_apply _ _ _ _
  rw [progWrite, if_neg hlow, hdata]
  dsimp only
  by_cases hhigh : 0x8000 ≤ a
  · rw [if_pos hhigh, pageWord_of_banked s.xpc ha hhigh]
    congr 1
    funext w
    simp only [Function.update_apply]
    by_cases hpage : w = a.setWidth 18 <;> simp [hpage]
  · rw [if_neg hhigh, pageWord_of_lt s.xpc (by bv_omega)]
    congr 1
    funext w
    simp only [Function.update_apply, or_self]

theorem progFetch_progWrite (p' a' : Word) : progFetch ((progWrite s a v).onPage p') a' =
    if inOverlay s a' then (if a' = a then v else s.data a')
    else if pageWord p' a' = pageWord s.xpc a ∨ pageWord p' a' = a.setWidth 18 then v
    else s.prog (pageWord p' a') := by
  rw [progWrite_eq ha, progFetch_onPage]
  show (if inOverlay s a' then (if inOverlay s a ∧ a' = a then v else s.data a')
    else _) = _
  by_cases hover : inOverlay s a'
  · rw [if_pos hover, if_pos hover]
    by_cases hsame : a' = a
    · subst hsame
      rw [if_pos ⟨hover, rfl⟩, if_pos rfl]
    · rw [if_neg fun h => hsame h.2, if_neg hsame]
  · rw [if_neg hover, if_neg hover]

end ProgWrite

/-! ### One word is written -/

/-- `prog_write` on page `p` changes the one word that page and address designate. -/
structure WritesOneWord (s : Cpu) (p a v : Word) : Prop where
  same : progFetch ((progWrite (s.onPage p) a v).onPage p) a = v
  other : ∀ p' a', progXlate (s.onPage p') a' ≠ progXlate (s.onPage p) a →
    progFetch ((progWrite (s.onPage p) a v).onPage p') a' = progFetch (s.onPage p') a'

/-- A write on one of the pages touches no other word if and only if its address is not banked, its
page is page 0, or page 0 held the value at this address already. -/
theorem writesOneWord_iff (s : Cpu) {p a : Word} (v : Word) (hp : p ≤ 3) (ha : a < 0xE000) :
    WritesOneWord s p a v ↔ a < 0x8000 ∨ p = 0 ∨ s.prog (a.setWidth 18) = v := by
  have hread : ∀ p' a', progFetch ((progWrite (s.onPage p) a v).onPage p') a' =
      if inOverlay s a' = true then (if a' = a then v else s.data a')
      else if pageWord p' a' = pageWord p a ∨ pageWord p' a' = a.setWidth 18 then v
      else s.prog (pageWord p' a') := progFetch_progWrite (s := s.onPage p) ha v
  constructor
  · intro h
    by_contra hcond
    simp only [not_or] at hcond
    obtain ⟨hhigh, hp0, hold⟩ := hcond
    have hhigh' : 0x8000 ≤ a := by bv_omega
    have hover : ¬ inOverlay s a = true := fun h => by
      have hlt := overlay_lt h
      bv_omega
    -- page 0 is read at the same address
    have hother := h.other 0 a (by
      show pageWord 0 a ≠ pageWord p a
      rw [pageWord_zero]
      exact (pageWord_ne_zero hp hp0 ha hhigh').symm)
    rw [hread 0 a, progFetch_onPage, if_neg hover, if_neg hover, pageWord_zero,
      if_pos (.inr rfl)] at hother
    exact hold hother.symm
  · intro hcond
    refine ⟨?_, fun p' a' hne => ?_⟩
    · rw [hread p a]
      split
      · exact if_pos rfl
      · exact if_pos (.inl rfl)
    · change pageWord p' a' ≠ pageWord p a at hne
      rw [hread p' a', progFetch_onPage]
      by_cases hover : inOverlay s a' = true
      · have hne' : a' ≠ a := by
          rintro rfl
          have hlow : a' < 0x8000 := by
            have hlt := overlay_lt hover
            bv_omega
          exact hne (by rw [pageWord_of_lt p' hlow, pageWord_of_lt p hlow])
        rw [if_pos hover, if_pos hover, if_neg hne']
      · rw [if_neg hover, if_neg hover]
        by_cases hpage0 : pageWord p' a' = a.setWidth 18
        · rw [if_pos (.inr hpage0), hpage0]
          rcases hcond with hlow | rfl | hold
          · exact absurd (hpage0.trans (pageWord_of_lt p hlow).symm) hne
          · exact absurd (hpage0.trans (pageWord_zero a).symm) hne
          · exact hold.symm
        · rw [if_neg (not_or.mpr ⟨hne, hpage0⟩)]

/-- A write on page 2 below the banked addresses. -/
theorem writesOneWord_not_banked : WritesOneWord (boot []).toCpu 2 0x3000 0x1234 :=
  (writesOneWord_iff (boot []).toCpu 0x1234 (by decide) (by decide)).mpr (.inl (by decide))

/-- 0x1234 written at 0x9000 on page 1 is read at 0x9000 on page 0, in place of the NOP there. -/
theorem page_0_overwritten :
    progFetch ((boot []).toCpu.onPage 0) 0x9000 = 0xF495 ∧
      progFetch ((progWrite ((boot []).toCpu.onPage 1) 0x9000 0x1234).onPage 0) 0x9000 = 0x1234 ∧
      ¬ WritesOneWord (boot []).toCpu 1 0x9000 0x1234 := by
  refine ⟨by decide +kernel, by decide +kernel, fun h => ?_⟩
  have hother := h.other 0 0x9000 (by decide +kernel)
  exact absurd hother (by decide +kernel)

end Qosmo.C54x
