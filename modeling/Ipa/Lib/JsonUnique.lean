import Ipa.Lib.JsonClean
import Ipa.Lib.Utf8

/-!
# JSON texts are read in one way

Where two syntax trees have the same text, followed by something that ends a value, they are the same
tree. So whatever reads a JSON text as the grammar says finds the same data in it.
-/

namespace Ipa.JsonText

/-! ## White space and digits -/

/-- A run of bytes of a kind, up to a byte that is not. -/
theorem run_inj {p : UInt8 → Bool} {a a' s s' : List UInt8} (ha : ∀ c ∈ a, p c = true)
    (ha' : ∀ c ∈ a', p c = true) (hs : ∀ c, s.head? = some c → p c = false)
    (hs' : ∀ c, s'.head? = some c → p c = false) (h : a ++ s = a' ++ s') : a = a' ∧ s = s' := by
  have htake : ∀ {a s : List UInt8}, (∀ c ∈ a, p c = true) →
      (∀ c, s.head? = some c → p c = false) → (a ++ s).takeWhile p = a := by
    intro a s ha hs
    rw [List.takeWhile_append_of_pos ha]
    cases s with
    | nil => rw [List.takeWhile_nil, List.append_nil]
    | cons c s =>
      rw [List.takeWhile_cons, hs c rfl]
      exact List.append_nil _
  have hsame : a = a' := by
    rw [← htake ha hs, h, htake ha' hs']
  subst hsame
  exact ⟨rfl, List.append_cancel_left h⟩

/-- What starts with no white space. -/
def Dense (s : List UInt8) : Prop := ∀ c, s.head? = some c → isWs c = false

theorem dense_cons {c : UInt8} {s : List UInt8} (h : isWs c = false) : Dense (c :: s) := by
  intro d hd
  cases hd
  exact h

theorem Space.inj {b b' : Space} {s s' : List UInt8} (hs : Dense s) (hs' : Dense s')
    (h : b.bytes ++ s = b'.bytes ++ s') : b = b' ∧ s = s' := by
  obtain ⟨hbytes, hrest⟩ := run_inj b.white b'.white hs hs' h
  obtain ⟨bytes, white⟩ := b
  obtain ⟨bytes', white'⟩ := b'
  cases hbytes
  exact ⟨rfl, hrest⟩

/-! ## Numbers -/

section Numbers

variable {s s' : List UInt8}

theorem Exponent.inj {x x' : Exponent} (hs : EndsNumber s) (hs' : EndsNumber s')
    (h : x.text ++ s = x'.text ++ s') : x = x' ∧ s = s' := by
  obtain ⟨mark, sign, digits, hmark, hsign, hne, hdigits⟩ := x
  obtain ⟨mark', sign', digits', hmark', hsign', hne', hdigits'⟩ := x'
  have hhead : ∀ {digits s : List UInt8}, digits ≠ [] → (∀ d ∈ digits, isDigit d = true) →
      ∃ d t, digits ++ s = d :: t ∧ isDigit d = true := by
    intro digits s hne hdigits
    cases digits with
    | nil => exact absurd rfl hne
    | cons d ds => exact ⟨d, ds ++ s, rfl, hdigits d List.mem_cons_self⟩
  unfold Exponent.text at h
  simp only [List.cons_append, List.append_assoc] at h
  injection h with hm h
  obtain ⟨d, t, hd, hdigit⟩ := hhead (s := s) hne hdigits
  obtain ⟨d', t', hd', hdigit'⟩ := hhead (s := s') hne' hdigits'
  -- a sign is no digit
  have hsigns : sign = sign' ∧ digits ++ s = digits' ++ s' := by
    rcases hsign with rfl | rfl | rfl <;> rcases hsign' with rfl | rfl | rfl
    · exact ⟨rfl, h⟩
    · rw [hd] at h
      cases h
      cases hdigit
    · rw [hd] at h
      cases h
      cases hdigit
    · rw [hd'] at h
      cases h
      cases hdigit'
    · exact ⟨rfl, List.append_cancel_left h⟩
    · cases h
    · rw [hd'] at h
      cases h
      cases hdigit'
    · cases h
    · exact ⟨rfl, List.append_cancel_left h⟩
  obtain ⟨rfl, hrest⟩ := hsigns
  obtain ⟨rfl, rfl⟩ := run_inj hdigits hdigits' (fun c hc => (hs c hc).1)
    (fun c hc => (hs' c hc).1) hrest
  subst hm
  exact ⟨rfl, rfl⟩

theorem Numeral.exponent_inj {n n' : Numeral} (hs : EndsNumber s) (hs' : EndsNumber s')
    (h : n.exponentText ++ s = n'.exponentText ++ s') : n.exponent = n'.exponent ∧ s = s' := by
  have hmark : ∀ {x : Exponent} {s s' : List UInt8}, EndsNumber s → s ≠ x.text ++ s' := by
    intro x s s' hs heq
    have hlower : lower x.mark = 0x65 := by
      rcases x.mark_eq with hmark | hmark <;> rw [hmark] <;> decide
    exact (hs x.mark (by rw [heq]; rfl)).2.2.1 hlower
  unfold exponentText at h
  rcases hx : n.exponent with _ | x <;> rcases hx' : n'.exponent with _ | x' <;> rw [hx, hx'] at h
  · exact ⟨rfl, h⟩
  · exact absurd h (hmark hs)
  · exact absurd h.symm (hmark hs')
  · obtain ⟨rfl, hrest⟩ := Exponent.inj hs hs' h
    exact ⟨rfl, hrest⟩

theorem Numeral.inj {n n' : Numeral} (hs : EndsNumber s) (hs' : EndsNumber s')
    (h : n.text ++ s = n'.text ++ s') : n = n' ∧ s = s' := by
  obtain ⟨d, t, hd⟩ := List.exists_cons_of_ne_nil n.whole_ok.1
  obtain ⟨d', t', hd'⟩ := List.exists_cons_of_ne_nil n'.whole_ok.1
  have hdigit : isDigit d = true := n.whole_ok.2 d (by rw [hd]; exact List.mem_cons_self)
  have hdigit' : isDigit d' = true := n'.whole_ok.2 d' (by rw [hd']; exact List.mem_cons_self)
  unfold Numeral.text at h
  simp only [List.append_assoc] at h
  have hsign : n.minus = n'.minus ∧ n.whole ++ (n.fraction ++ (n.exponentText ++ s)) =
      n'.whole ++ (n'.fraction ++ (n'.exponentText ++ s')) := by
    unfold sign at h
    rcases hm : n.minus <;> rcases hm' : n'.minus <;> rw [hm, hm'] at h
    · exact ⟨rfl, h⟩
    · rw [hd] at h
      injection h with hhead
      rw [hhead] at hdigit
      cases hdigit
    · rw [hd'] at h
      injection h with hhead
      rw [← hhead] at hdigit'
      cases hdigit'
    · exact ⟨rfl, List.append_cancel_left h⟩
  obtain ⟨hminus, hmore⟩ := hsign
  have hexp := n.exponent_head hs
  have hexp' := n'.exponent_head hs'
  -- no digit follows the digits in front of the fraction
  have hnext : ∀ {n : Numeral} {s : List UInt8}, (∀ c, (n.exponentText ++ s).head? = some c →
      isDigit c = false ∧ c ≠ 0x2E ∧ lower c ≠ 0x78) →
        ∀ c, (n.fraction ++ (n.exponentText ++ s)).head? = some c → isDigit c = false := by
    intro n s hexp c hc
    unfold fraction at hc
    split at hc
    · exact (hexp c hc).1
    · cases hc
      rfl
  obtain ⟨hwhole, hmore⟩ := run_inj n.whole_ok.2 n'.whole_ok.2 (hnext hexp) (hnext hexp') hmore
  have hfrac : n.frac = n'.frac ∧ n.exponentText ++ s = n'.exponentText ++ s' := by
    unfold fraction at hmore
    by_cases hf : n.frac = [] <;> by_cases hf' : n'.frac = []
    · rw [if_pos hf, if_pos hf'] at hmore
      exact ⟨hf.trans hf'.symm, hmore⟩
    · rw [if_pos hf, if_neg hf'] at hmore
      exact absurd rfl (hexp 0x2E (by rw [List.nil_append] at hmore; rw [hmore]; rfl)).2.1
    · rw [if_neg hf, if_pos hf'] at hmore
      exact absurd rfl (hexp' 0x2E (by rw [List.nil_append] at hmore; rw [← hmore]; rfl)).2.1
    · rw [if_neg hf, if_neg hf'] at hmore
      injection hmore with _ hmore
      exact run_inj n.frac_ok n'.frac_ok (fun c hc => (hexp c hc).1) (fun c hc => (hexp' c hc).1)
        hmore
  obtain ⟨hfrac, hmore⟩ := hfrac
  obtain ⟨hexponent, hrest⟩ := exponent_inj hs hs' hmore
  obtain ⟨minus, whole, frac, exponent, _, _, _⟩ := n
  obtain ⟨minus', whole', frac', exponent', _, _, _⟩ := n'
  cases hminus
  cases hwhole
  cases hfrac
  cases hexponent
  exact ⟨rfl, hrest⟩

end Numbers

/-! ## Strings -/

/-- No byte of a plain character is a control character, a quote or a backslash. -/
theorem plain_byte {c : Plain} {b : UInt8} (h : b ∈ String.utf8EncodeChar c.char) :
    0x20 ≤ b.toNat ∧ b ≠ 0x22 ∧ b ≠ 0x5C := by
  have hprint := c.printable
  rcases utf8_byte h with ⟨-, heq⟩ | hge
  · refine ⟨by omega, ?_, ?_⟩
    · rintro rfl
      exact c.not_quote (Char.ext (UInt32.toNat_inj.mp heq.symm))
    · rintro rfl
      exact c.not_backslash (Char.ext (UInt32.toNat_inj.mp heq.symm))
  · refine ⟨by omega, ?_, ?_⟩
    · rintro rfl
      exact absurd hge (by decide)
    · rintro rfl
      exact absurd hge (by decide)

theorem plain_head (c : Plain) : ∃ b t, (Glyph.plain c).text = b :: t ∧ b ≠ 0x22 ∧ b ≠ 0x5C := by
  have hpos := c.char.utf8Size_pos
  rw [← String.length_utf8EncodeChar] at hpos
  obtain ⟨b, t, hb⟩ := List.exists_cons_of_ne_nil (List.length_pos_iff.mp hpos)
  exact ⟨b, t, hb, (plain_byte (by rw [hb]; exact List.mem_cons_self)).2⟩

theorem letter_inj {e e' : Escape} (h : e.letter = e'.letter) : e = e' := by
  cases e <;> cases e' <;> first | rfl | exact absurd h (by decide)

theorem letter_ne (e : Escape) : e.letter ≠ 0x75 := by
  cases e <;> decide

theorem body_cons (g : Glyph) (gs : List Glyph) (s : List UInt8) :
    body (g :: gs) ++ s = g.text ++ (body gs ++ s) := by
  unfold body
  rw [List.flatMap_cons, List.append_assoc]

/-- No glyph starts with a quote. -/
theorem glyph_head (g : Glyph) : ∃ b t, g.text = b :: t ∧ b ≠ 0x22 := by
  cases g with
  | plain c =>
    obtain ⟨b, t, hb, hquote, -⟩ := plain_head c
    exact ⟨b, t, hb, hquote⟩
  | escape e => exact ⟨0x5C, [e.letter], rfl, by decide⟩
  | code x => exact ⟨0x5C, [0x75, x.a, x.b, x.c, x.d], rfl, by decide⟩

theorem plain_ne {c : Plain} {g : Glyph} {t s s' : List UInt8} (hg : g.text = 0x5C :: t)
    (h : (Glyph.plain c).text ++ s = g.text ++ s') : False := by
  obtain ⟨b, t, hb, -, hback⟩ := plain_head c
  rw [hb, hg] at h
  injection h with hhead
  exact hback hhead

/-- The first glyph of a text. -/
theorem glyph_inj {g g' : Glyph} {s s' : List UInt8} (h : g.text ++ s = g'.text ++ s') :
    g = g' ∧ s = s' := by
  cases g with
  | plain c =>
    cases g' with
    | plain c' =>
      obtain ⟨hchar, hrest⟩ := utf8EncodeChar_append_inj h
      obtain ⟨char, _, _, _⟩ := c
      obtain ⟨char', _, _, _⟩ := c'
      cases hchar
      exact ⟨rfl, hrest⟩
    | escape e' => exact (plain_ne rfl h).elim
    | code x' => exact (plain_ne rfl h).elim
  | escape e =>
    cases g' with
    | plain c' => exact (plain_ne rfl h.symm).elim
    | escape e' =>
      injection h with _ h
      injection h with hletter h
      exact ⟨congrArg Glyph.escape (letter_inj hletter), h⟩
    | code x' =>
      injection h with _ h
      injection h with hletter
      exact absurd hletter (letter_ne e)
  | code x =>
    cases g' with
    | plain c' => exact (plain_ne rfl h.symm).elim
    | escape e' =>
      injection h with _ h
      injection h with hletter
      exact absurd hletter.symm (letter_ne e')
    | code x' =>
      obtain ⟨a, b, c, d, _⟩ := x
      obtain ⟨a', b', c', d', _⟩ := x'
      injection h with _ h
      injection h with _ h
      injection h with ha h
      injection h with hb h
      injection h with hc h
      injection h with hd h
      cases ha
      cases hb
      cases hc
      cases hd
      exact ⟨rfl, h⟩

theorem body_ne_quote {g : Glyph} {gs : List Glyph} {s s' : List UInt8}
    (h : body (g :: gs) ++ s = 0x22 :: s') : False := by
  obtain ⟨b, t, hb, hquote⟩ := glyph_head g
  rw [body_cons, hb] at h
  injection h with hhead
  exact hquote hhead

/-- The glyphs up to the closing quote. -/
theorem body_inj : ∀ {gs gs' : List Glyph} {s s' : List UInt8},
    body gs ++ 0x22 :: s = body gs' ++ 0x22 :: s' → gs = gs' ∧ s = s'
  | [], [], _, _, h => by
    injection h with _ h
    exact ⟨rfl, h⟩
  | [], _ :: _, _, _, h => (body_ne_quote h.symm).elim
  | _ :: _, [], _, _, h => (body_ne_quote h).elim
  | g :: gs, g' :: gs', s, s', h => by
    rw [body_cons, body_cons] at h
    obtain ⟨rfl, hrest⟩ := glyph_inj h
    obtain ⟨rfl, hs⟩ := body_inj hrest
    exact ⟨rfl, hs⟩

theorem literal_inj {gs gs' : List Glyph} {s s' : List UInt8}
    (h : literal gs ++ s = literal gs' ++ s') : gs = gs' ∧ s = s' := by
  unfold literal at h
  simp only [List.cons_append, List.append_assoc, List.nil_append] at h
  injection h with _ h
  exact body_inj h

/-! ## Values -/

/-- What kind of value a byte begins. -/
def rankOf (c : UInt8) : Nat :=
  if c = 0x22 then 0
  else if c = 0x5B then 1
  else if c = 0x7B then 2
  else if c = 0x74 ∨ c = 0x66 ∨ c = 0x6E then 3
  else 4

def Value.rank : Value → Nat
  | .string _ => 0
  | .emptyArray _ => 1
  | .array _ => 1
  | .emptyObject _ => 2
  | .object _ => 2
  | .word _ => 3
  | .number _ => 4

theorem rankOf_digit : ∀ d, isDigit d = true →
    rankOf d = 4 ∧ isWs d = false ∧ d ≠ 0x5D ∧ d ≠ 0x7D := forall_byte (by decide +kernel)

/-- The first byte of a value tells its kind, and is no white space and no closing bracket. -/
theorem Value.first (v : Value) : ∃ c t, v.text = c :: t ∧ rankOf c = v.rank ∧ isWs c = false ∧
    c ≠ 0x5D ∧ c ≠ 0x7D := by
  cases v with
  | word w => cases w <;> exact ⟨_, _, rfl, rfl, by decide⟩
  | number n =>
    obtain ⟨c, t, ht, hc⟩ := n.head
    rcases hc with rfl | hc
    · exact ⟨_, t, ht, rfl, by decide⟩
    · exact ⟨c, t, ht, rankOf_digit c hc⟩
  | string gs => exact ⟨0x22, _, rfl, rfl, by decide⟩
  | emptyArray b => exact ⟨0x5B, _, rfl, rfl, by decide⟩
  | array items => exact ⟨0x5B, _, rfl, rfl, by decide⟩
  | emptyObject b => exact ⟨0x7B, _, rfl, rfl, by decide⟩
  | object members => exact ⟨0x7B, _, rfl, rfl, by decide⟩

theorem Value.dense (v : Value) (s : List UInt8) : Dense (v.text ++ s) := by
  obtain ⟨c, t, ht, -, hws, -⟩ := v.first
  rw [ht]
  exact dense_cons hws

theorem dense_literal (gs : List Glyph) (s : List UInt8) : Dense (literal gs ++ s) :=
  dense_cons rfl

theorem rank_eq {v v' : Value} {s s' : List UInt8} (h : v.text ++ s = v'.text ++ s') :
    v.rank = v'.rank := by
  obtain ⟨c, t, ht, hrank, -⟩ := v.first
  obtain ⟨c', t', ht', hrank', -⟩ := v'.first
  rw [ht, ht'] at h
  injection h with hhead
  rw [← hrank, ← hrank', hhead]

theorem Word.inj {w w' : Word} {s s' : List UInt8} (h : w.text ++ s = w'.text ++ s') :
    w = w' ∧ s = s' := by
  cases w <;> cases w' <;> first | exact ⟨rfl, List.append_cancel_left h⟩ | cases h

/-- No item stands between white space and a closing bracket. -/
theorem elements_ne_close {items : Elements} {b : Space} {s s' : List UInt8} :
    items.text ++ s ≠ b.bytes ++ 0x5D :: s' := by
  intro h
  have hfirst : ∃ (before : Space) (v : Value) (t : List UInt8),
      items.text ++ s = before.bytes ++ (v.text ++ t) := by
    cases items with
    | last before v after => exact ⟨before, v, after.bytes ++ s, by simp [Elements.text]⟩
    | more before v after rest =>
      exact ⟨before, v, after.bytes ++ 0x2C :: (rest.text ++ s), by simp [Elements.text]⟩
  obtain ⟨before, v, t, hitems⟩ := hfirst
  obtain ⟨-, hclose⟩ := Space.inj (v.dense t) (dense_cons rfl) (hitems.symm.trans h)
  obtain ⟨c, u, hu, -, -, hne, -⟩ := v.first
  rw [hu] at hclose
  injection hclose with hhead
  exact hne hhead

theorem members_ne_close {members : Members} {b : Space} {s s' : List UInt8} :
    members.text ++ s ≠ b.bytes ++ 0x7D :: s' := by
  intro h
  have hfirst : ∃ (before : Space) (name : List Glyph) (t : List UInt8),
      members.text ++ s = before.bytes ++ (literal name ++ t) := by
    cases members with
    | last before name after before' v after' =>
      exact ⟨before, name, _, by rw [Members.text, List.append_assoc, List.append_assoc]⟩
    | more before name after before' v after' rest =>
      exact ⟨before, name, _, by rw [Members.text, List.append_assoc, List.append_assoc]⟩
  obtain ⟨before, name, t, hmembers⟩ := hfirst
  obtain ⟨-, hclose⟩ := Space.inj (dense_literal name t) (dense_cons rfl) (hmembers.symm.trans h)
  injection hclose with hhead
  cases hhead

/-- A value that is told from what follows it. -/
def Told (v : Value) : Prop :=
  ∀ {s s' : List UInt8}, Stops s → Stops s' → ∀ v', v.text ++ s = v'.text ++ s' → v = v' ∧ s = s'

section Items

variable {v v' : Value} {c c' : UInt8} {s s' : List UInt8}

theorem item_inj (hv : Told v) {before after before' after' : Space}
    (hc : c = 0x2C ∨ c = 0x5D ∨ c = 0x7D) (hc' : c' = 0x2C ∨ c' = 0x5D ∨ c' = 0x7D)
    (h : before.bytes ++ (v.text ++ (after.bytes ++ c :: s)) =
      before'.bytes ++ (v'.text ++ (after'.bytes ++ c' :: s'))) :
    before = before' ∧ v = v' ∧ after = after' ∧ c = c' ∧ s = s' := by
  have hdense : ∀ {c : UInt8} {s : List UInt8}, c = 0x2C ∨ c = 0x5D ∨ c = 0x7D → Dense (c :: s) := by
    intro c s hc
    apply dense_cons
    rcases hc with rfl | rfl | rfl <;> rfl
  obtain ⟨hbefore, hvalue⟩ := Space.inj (v.dense _) (v'.dense _) h
  obtain ⟨hsame, hrest⟩ := hv ((stops_cons hc).space after) ((stops_cons hc').space after') v' hvalue
  obtain ⟨hafter, hend⟩ := Space.inj (hdense hc) (hdense hc') hrest
  injection hend with hhead htail
  exact ⟨hbefore, hsame, hafter, hhead, htail⟩

theorem member_inj (hv : Told v) {before mid mid' after before₁ mid₁ mid₁' after₁ : Space}
    {name name₁ : List Glyph}
    (hc : c = 0x2C ∨ c = 0x5D ∨ c = 0x7D) (hc' : c' = 0x2C ∨ c' = 0x5D ∨ c' = 0x7D)
    (h : before.bytes ++ (literal name ++ (mid.bytes ++ 0x3A :: (mid'.bytes ++ (v.text ++
        (after.bytes ++ c :: s))))) =
      before₁.bytes ++ (literal name₁ ++ (mid₁.bytes ++ 0x3A :: (mid₁'.bytes ++ (v'.text ++
        (after₁.bytes ++ c' :: s')))))) :
    (before = before₁ ∧ name = name₁ ∧ mid = mid₁) ∧
      mid' = mid₁' ∧ v = v' ∧ after = after₁ ∧ c = c' ∧ s = s' := by
  obtain ⟨hbefore, hliteral⟩ := Space.inj (dense_literal _ _) (dense_literal _ _) h
  obtain ⟨hname, hmiddle⟩ := literal_inj hliteral
  obtain ⟨hmid, hcolon⟩ := Space.inj (dense_cons rfl) (dense_cons rfl) hmiddle
  injection hcolon with _ hitem
  exact ⟨⟨hbefore, hname, hmid⟩, item_inj hv hc hc' hitem⟩

end Items

mutual

/-- **A value** and what follows it are determined by their text. -/
theorem Value.inj {s s' : List UInt8} (hs : Stops s) (hs' : Stops s') : ∀ (v v' : Value),
    v.text ++ s = v'.text ++ s' → v = v' ∧ s = s'
  | .word w, v', h => by
    have hrank := rank_eq h
    cases v' with
    | word w' =>
      obtain ⟨rfl, hrest⟩ := Word.inj h
      exact ⟨rfl, hrest⟩
    | _ => cases hrank
  | .number n, v', h => by
    have hrank := rank_eq h
    cases v' with
    | number n' =>
      obtain ⟨rfl, hrest⟩ := Numeral.inj hs.endsNumber hs'.endsNumber h
      exact ⟨rfl, hrest⟩
    | _ => cases hrank
  | .string gs, v', h => by
    have hrank := rank_eq h
    cases v' with
    | string gs' =>
      obtain ⟨rfl, hrest⟩ := literal_inj h
      exact ⟨rfl, hrest⟩
    | _ => cases hrank
  | .emptyArray b, v', h => by
    have hrank := rank_eq h
    cases v' with
    | emptyArray b' =>
      simp only [Value.text, List.cons_append, List.append_assoc] at h
      injection h with _ h
      obtain ⟨rfl, hrest⟩ := Space.inj (dense_cons rfl) (dense_cons rfl) h
      injection hrest with _ hrest
      exact ⟨rfl, hrest⟩
    | array items' =>
      simp only [Value.text, List.cons_append, List.append_assoc] at h
      injection h with _ h
      exact absurd h.symm elements_ne_close
    | _ => cases hrank
  | .array items, v', h => by
    have hrank := rank_eq h
    cases v' with
    | emptyArray b' =>
      simp only [Value.text, List.cons_append, List.append_assoc] at h
      injection h with _ h
      exact absurd h elements_ne_close
    | array items' =>
      simp only [Value.text, List.cons_append, List.append_assoc] at h
      injection h with _ h
      obtain ⟨rfl, hrest⟩ := items.inj items' h
      exact ⟨rfl, hrest⟩
    | _ => cases hrank
  | .emptyObject b, v', h => by
    have hrank := rank_eq h
    cases v' with
    | emptyObject b' =>
      simp only [Value.text, List.cons_append, List.append_assoc] at h
      injection h with _ h
      obtain ⟨rfl, hrest⟩ := Space.inj (dense_cons rfl) (dense_cons rfl) h
      injection hrest with _ hrest
      exact ⟨rfl, hrest⟩
    | object members' =>
      simp only [Value.text, List.cons_append, List.append_assoc] at h
      injection h with _ h
      exact absurd h.symm members_ne_close
    | _ => cases hrank
  | .object members, v', h => by
    have hrank := rank_eq h
    cases v' with
    | emptyObject b' =>
      simp only [Value.text, List.cons_append, List.append_assoc] at h
      injection h with _ h
      exact absurd h members_ne_close
    | object members' =>
      simp only [Value.text, List.cons_append, List.append_assoc] at h
      injection h with _ h
      obtain ⟨rfl, hrest⟩ := members.inj members' h
      exact ⟨rfl, hrest⟩
    | _ => cases hrank

theorem Elements.inj {s s' : List UInt8} : ∀ (items items' : Elements),
    items.text ++ ([0x5D] ++ s) = items'.text ++ ([0x5D] ++ s') → items = items' ∧ s = s'
  | .last before v after, items', h => by
    have hv : Told v := fun hs hs' => v.inj hs hs'
    cases items' with
    | last before' v' after' =>
      simp only [Elements.text, List.append_assoc, List.cons_append, List.nil_append] at h
      obtain ⟨rfl, rfl, rfl, -, rfl⟩ := item_inj hv (.inr (.inl rfl)) (.inr (.inl rfl)) h
      exact ⟨rfl, rfl⟩
    | more before' v' after' rest' =>
      simp only [Elements.text, List.append_assoc, List.cons_append, List.nil_append] at h
      obtain ⟨-, -, -, hend, -⟩ := item_inj hv (.inr (.inl rfl)) (.inl rfl) h
      cases hend
  | .more before v after rest, items', h => by
    have hv : Told v := fun hs hs' => v.inj hs hs'
    cases items' with
    | last before' v' after' =>
      simp only [Elements.text, List.append_assoc, List.cons_append, List.nil_append] at h
      obtain ⟨-, -, -, hend, -⟩ := item_inj hv (.inl rfl) (.inr (.inl rfl)) h
      cases hend
    | more before' v' after' rest' =>
      simp only [Elements.text, List.append_assoc, List.cons_append, List.nil_append] at h
      obtain ⟨rfl, rfl, rfl, -, hrest⟩ := item_inj hv (.inl rfl) (.inl rfl) h
      obtain ⟨rfl, rfl⟩ := rest.inj rest' hrest
      exact ⟨rfl, rfl⟩

theorem Members.inj {s s' : List UInt8} : ∀ (members members' : Members),
    members.text ++ ([0x7D] ++ s) = members'.text ++ ([0x7D] ++ s') →
      members = members' ∧ s = s'
  | .last before name mid mid' v after, members', h => by
    have hv : Told v := fun hs hs' => v.inj hs hs'
    cases members' with
    | last before₁ name₁ mid₁ mid₁' v₁ after₁ =>
      simp only [Members.text, List.append_assoc, List.cons_append, List.nil_append] at h
      obtain ⟨⟨rfl, rfl, rfl⟩, rfl, rfl, rfl, -, rfl⟩ :=
        member_inj hv (.inr (.inr rfl)) (.inr (.inr rfl)) h
      exact ⟨rfl, rfl⟩
    | more before₁ name₁ mid₁ mid₁' v₁ after₁ rest₁ =>
      simp only [Members.text, List.append_assoc, List.cons_append, List.nil_append] at h
      obtain ⟨-, -, -, -, hend, -⟩ := member_inj hv (.inr (.inr rfl)) (.inl rfl) h
      cases hend
  | .more before name mid mid' v after rest, members', h => by
    have hv : Told v := fun hs hs' => v.inj hs hs'
    cases members' with
    | last before₁ name₁ mid₁ mid₁' v₁ after₁ =>
      simp only [Members.text, List.append_assoc, List.cons_append, List.nil_append] at h
      obtain ⟨-, -, -, -, hend, -⟩ := member_inj hv (.inl rfl) (.inr (.inr rfl)) h
      cases hend
    | more before₁ name₁ mid₁ mid₁' v₁ after₁ rest₁ =>
      simp only [Members.text, List.append_assoc, List.cons_append, List.nil_append] at h
      obtain ⟨⟨rfl, rfl, rfl⟩, rfl, rfl, rfl, -, hrest⟩ := member_inj hv (.inl rfl) (.inl rfl) h
      obtain ⟨rfl, rfl⟩ := rest.inj rest₁ hrest
      exact ⟨rfl, rfl⟩

end

/-- **One reading**: a text has one syntax tree. -/
theorem Text.inj {t t' : Text} (h : t.bytes = t'.bytes) : t = t' := by
  obtain ⟨before, v, after⟩ := t
  obtain ⟨before', v', after'⟩ := t'
  have hstops : ∀ b : Space, Stops b.bytes := by
    intro b
    have := stops_nil.space b
    rwa [List.append_nil] at this
  unfold Text.bytes at h
  obtain ⟨rfl, h₁⟩ := Space.inj (v.dense _) (v'.dense _) h
  obtain ⟨rfl, h₂⟩ := v.inj (hstops after) (hstops after') v' h₁
  rw [← List.append_nil after.bytes, ← List.append_nil after'.bytes] at h₂
  have hnil : Dense [] := fun _ hc => by cases hc
  obtain ⟨rfl, -⟩ := Space.inj hnil hnil h₂
  rfl

end Ipa.JsonText
