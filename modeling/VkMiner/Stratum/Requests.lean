import VkMiner.Core.Decimal
import VkMiner.Lib.JsonText
import VkMiner.Stratum.Method
import VkMiner.Stratum.Header
set_option autoImplicit false

/-! The lines that are printed with strings of the user's and of the pool's in them, and
what a reader of JSON makes of them. -/

namespace VkMiner.Stratum
open JsonText

/-- `stratum_authorize`. -/
def authorizeLine (user pass : CStr) : CStr :=
  ascii "\x7b\"id\": 2, \"method\": \"mining.authorize\", \"params\": [" ++ quoted user ++
    ascii ", " ++ quoted pass ++ ascii "]\x7d"

def authorizeValue (user pass : CStr) : Value :=
  .object [(ascii "id",.number (ascii "2")),(ascii "method",.string (ascii "mining.authorize")),
    (ascii "params",.array ([user,pass].map .string))]

/-- The line of a share, as it would be in a buffer without an end. -/
def Submission.text (s : Submission) : CStr :=
  ascii "\x7b\"method\": \"mining.submit\", \"params\": [" ++ quoted s.user ++ ascii ", " ++
    quoted s.jobId ++ ascii ", " ++ quoted s.xnonce2 ++ ascii ", " ++ quoted s.ntime ++
    ascii ", " ++ quoted s.nonce ++ ascii "], \"id\":" ++ decimal s.id ++ ascii "\x7d"

def Submission.params (s : Submission) : List CStr := [s.user,s.jobId,s.xnonce2,s.ntime,s.nonce]

def Submission.value (s : Submission) : Value :=
  .object [(ascii "method",.string (ascii "mining.submit")),
    (ascii "params",.array (s.params.map .string)),(ascii "id",.number (decimal s.id))]

/-- `submit_upstream_work`, up to the line. -/
def submission (d : Dialect) (user : CStr) (w : Work) (nonce : UInt64) (mixhash : Bytes)
    (id : Nat) : Submission :=
  if d = .progpow then progpowBuildStratumRequest user w nonce mixhash id
  else stdLeBuildStratumRequest d user w id

theorem line_text (s : Submission) : s.line = s.text.take 511 := rfl

theorem authorizeLine_eq (user pass : CStr) : authorizeLine user pass =
    123 :: 34 :: (ascii "id" ++ 34 :: 58 :: 32 :: (ascii "2" ++ 44 :: 32 :: 34 ::
      (ascii "method" ++ 34 :: 58 :: 32 :: 34 :: (ascii "mining.authorize" ++ 34 :: 44 :: 32 :: 34 ::
        (ascii "params" ++ 34 :: 58 :: 32 :: 91 :: strings [user,pass] [125]))))) := by
  simp [authorizeLine,ascii,quoted,strings]

theorem text_eq (s : Submission) : s.text =
    123 :: 34 :: (ascii "method" ++ 34 :: 58 :: 32 :: 34 :: (ascii "mining.submit" ++ 34 :: 44 :: 32 ::
      34 :: (ascii "params" ++ 34 :: 58 :: 32 :: 91 :: strings s.params (44 :: 32 :: 34 ::
        (ascii "id" ++ 34 :: 58 :: (decimal s.id ++ [125])))))) := by
  simp [Submission.text,Submission.params,ascii,quoted,strings]

theorem strings_cons (x : CStr) (xs : List CStr) (y : CStr) :
    ∃ z, strings (x :: xs) y = 34 :: z := by
  cases xs with
  | nil => exact ⟨_,rfl⟩
  | cons x' xs => exact ⟨_,rfl⟩

variable {user pass r : CStr} {n : Nat} {s : Submission}

theorem digits_two : Digits (ascii "2") :=
  ⟨by decide,List.all_eq_true.mp (by decide),by decide⟩

theorem authorize_value (hu : Clean user) (hp : Clean pass) (n : Nat) :
    value (n+8) (authorizeLine user pass) = some (authorizeValue user pass,[]) := by
  have harray : value (n+4) (32 :: 91 :: strings [user,pass] [125]) =
      some (.array ([user,pass].map .string),[125]) := by
    have h := elements_strings [user,pass] (n := n+3) (by simp) (by simp [hu,hp]) (by simp) [125]
    obtain ⟨z,hz⟩ := strings_cons user [pass] [125]
    rw [hz] at h
    rw [value_space,hz,value_array,h]
    rfl
  have hmethod : value (n+5) (32 :: 34 :: (ascii "mining.authorize" ++ 34 :: 44 :: 32 :: 34 ::
      (ascii "params" ++ 34 :: 58 :: 32 :: 91 :: strings [user,pass] [125]))) =
      some (.string (ascii "mining.authorize"),44 :: 32 :: 34 ::
        (ascii "params" ++ 34 :: 58 :: 32 :: 91 :: strings [user,pass] [125])) := by
    rw [value_space,value_clean (by decide)]
  have hid (t : CStr) : value (n+6) (32 :: (ascii "2" ++ 44 :: t)) =
      some (.number (ascii "2"),44 :: t) := by
    rw [value_space,value_digits digits_two (by decide)]
  rw [authorizeLine_eq,value_object,members_comma (by decide) (hid _),members_space,
    members_comma (by decide) hmethod,members_space,members_end (by decide) harray]
  rfl

theorem authorize_back (h : value n (authorizeLine user pass) = some (authorizeValue user pass,r)) :
    Clean user ∧ Clean pass := by
  rw [authorizeLine_eq] at h
  obtain ⟨n₁,h⟩ := value_object_back h
  obtain ⟨n₂,s₁,s₂,hid,he,h⟩ := members_comma_back (by decide) h
  rw [value_space] at hid
  rw [value_digits_back digits_two (by decide) hid,eat_here 44 rfl,Option.some.injEq] at he
  rw [← he,members_space] at h
  obtain ⟨n₃,s₃,s₄,hmethod,he,h⟩ := members_comma_back (by decide) h
  rw [value_space] at hmethod
  rw [value_clean_back (by decide) hmethod,eat_here 44 rfl,Option.some.injEq] at he
  rw [← he,members_space] at h
  obtain ⟨n₄,s₅,harray,-⟩ := members_end_back (by decide) h
  obtain ⟨z,hz⟩ := strings_cons user [pass] [125]
  rw [value_space,hz] at harray
  obtain ⟨n₅,helements⟩ := value_array_back harray
  rw [← hz] at helements
  have hclean := (elements_back (by simp) (by decide) helements).1
  exact ⟨hclean user (by simp),hclean pass (by simp)⟩

theorem digitChar_byte : ∀ n < 10, isDigit (UInt8.ofNat (Nat.digitChar n).toNat) = true ∧
    (UInt8.ofNat (Nat.digitChar n).toNat = 48 → n = 0) := by decide

theorem decimal_head (n : Nat) : decimal n ≠ [] ∧ ((decimal n).head? = some 48 → n = 0) := by
  induction n using Nat.strongRecOn with
  | ind n ih =>
    by_cases h : n < 10
    · rw [decimal_small h]
      exact ⟨by simp,fun hz => (digitChar_byte n h).2 (by simpa using hz)⟩
    · obtain ⟨hne,hhead⟩ := ih (n/10) (by omega)
      rw [decimal_step (by omega)]
      refine ⟨by simp,fun hz => ?_⟩
      obtain ⟨a,t,ht⟩ := List.exists_cons_of_ne_nil hne
      rw [ht] at hhead hz
      have hzero := hhead (by simpa using hz)
      omega

theorem decimal_digits (n : Nat) : Digits (decimal n) where
  nonempty := (decimal_head n).1
  digits := by
    induction n using Nat.strongRecOn with
    | ind n ih =>
      by_cases h : n < 10
      · rw [decimal_small h]
        simpa using (digitChar_byte n h).1
      · rw [decimal_step (by omega)]
        intro b hb
        rcases List.mem_append.mp hb with hb | hb
        · exact ih (n/10) (by omega) b hb
        · rw [List.mem_singleton.mp hb]
          exact (digitChar_byte (n%10) (by omega)).1
  leading hz := by
    rw [(decimal_head n).2 hz]
    rfl

theorem submit_value (hc : ∀ x ∈ s.params, Clean x) (n : Nat) :
    value (n+11) s.text = some (s.value,[]) := by
  let t : CStr := 44 :: 32 :: 34 :: (ascii "id" ++ 34 :: 58 :: (decimal s.id ++ [125]))
  have hmethod : value (n+9) (32 :: 34 :: (ascii "mining.submit" ++ 34 :: 44 :: 32 :: 34 ::
      (ascii "params" ++ 34 :: 58 :: 32 :: 91 :: strings s.params t))) =
      some (.string (ascii "mining.submit"),44 :: 32 :: 34 ::
        (ascii "params" ++ 34 :: 58 :: 32 :: 91 :: strings s.params t)) := by
    rw [value_space,value_clean (by decide)]
  have harray : value (n+8) (32 :: 91 :: strings s.params t) =
      some (.array (s.params.map .string),t) := by
    have h := elements_strings s.params (n := n+7) (by simp [Submission.params]) hc
      (by simp only [Submission.params,List.length_cons,List.length_nil]; omega) t
    obtain ⟨z,hz⟩ := strings_cons s.user [s.jobId,s.xnonce2,s.ntime,s.nonce] t
    rw [show strings s.params t = 34 :: z from hz] at h ⊢
    rw [value_space,value_array,h]
    rfl
  have hid : value (n+7) (decimal s.id ++ [125]) = some (.number (decimal s.id),[125]) :=
    value_digits (decimal_digits s.id) (by decide) []
  rw [text_eq,value_object,members_comma (by decide) hmethod,members_space,
    members_comma (by decide) harray,members_space,members_end (by decide) hid]
  rfl

theorem submit_back (h : value n s.text = some (s.value,r)) :
    (∀ x ∈ s.params, Clean x) ∧ r = [] := by
  rw [text_eq] at h
  obtain ⟨n₁,h⟩ := value_object_back h
  obtain ⟨n₂,s₁,s₂,hmethod,he,h⟩ := members_comma_back (by decide) h
  rw [value_space] at hmethod
  rw [value_clean_back (by decide) hmethod,eat_here 44 rfl,Option.some.injEq] at he
  rw [← he,members_space] at h
  obtain ⟨n₃,s₃,s₄,harray,he,h⟩ := members_comma_back (by decide) h
  obtain ⟨z,hz⟩ := strings_cons s.user [s.jobId,s.xnonce2,s.ntime,s.nonce]
    (44 :: 32 :: 34 :: (ascii "id" ++ 34 :: 58 :: (decimal s.id ++ [125])))
  rw [value_space,show strings s.params _ = 34 :: z from hz] at harray
  obtain ⟨n₄,helements⟩ := value_array_back harray
  rw [← hz] at helements
  obtain ⟨hclean,hrest⟩ := elements_back (by simp) (by simp) helements
  rw [hrest,eat_here 44 rfl,Option.some.injEq] at he
  rw [← he,members_space] at h
  obtain ⟨n₅,s₅,hid,hend⟩ := members_end_back (by decide) h
  have hs₅ := value_digits_back (decimal_digits s.id) (by decide) hid
  rw [hs₅,eat_here 125 rfl,Option.some.injEq] at hend
  exact ⟨hclean,hend.symm⟩

theorem decimal_ascii (n : Nat) : ∀ b ∈ decimal n, b < 128 := by
  intro b hb
  have hd := (decimal_digits n).digits b hb
  simp only [isDigit,Bool.and_eq_true,decide_eq_true_eq] at hd
  exact UInt8.lt_of_le_of_lt hd.2 (by decide)

theorem utf8_authorize (user pass : CStr) :
    utf8 (authorizeLine user pass) = [user,pass].all utf8 := by
  have h := utf8_strings [user,pass] [125]
  rw [show utf8 [125] = true by decide,Bool.and_true] at h
  have hline : authorizeLine user pass =
      ascii "\x7b\"id\": 2, \"method\": \"mining.authorize\", \"params\": [" ++
        strings [user,pass] [125] := by
    simp [authorizeLine,ascii,quoted,strings]
  rw [hline,utf8_ascii (below_of_all (by decide)),h]

theorem utf8_text (s : Submission) : utf8 s.text = s.params.all utf8 := by
  have htail : utf8 (44 :: 32 :: 34 :: (ascii "id" ++ 34 :: 58 :: (decimal s.id ++ [125]))) = true := by
    have h := utf8_ascii (x := ascii ", \"id\":") (y := decimal s.id ++ [125])
      (below_of_all (by decide))
    rw [utf8_ascii (decimal_ascii s.id)] at h
    exact h.trans (by decide)
  have h := utf8_strings s.params (44 :: 32 :: 34 :: (ascii "id" ++ 34 :: 58 :: (decimal s.id ++ [125])))
  rw [htail,Bool.and_true] at h
  have hline : s.text = ascii "\x7b\"method\": \"mining.submit\", \"params\": [" ++
      strings s.params (44 :: 32 :: 34 :: (ascii "id" ++ 34 :: 58 :: (decimal s.id ++ [125]))) := by
    simp [text_eq,ascii]
  rw [hline,utf8_ascii (below_of_all (by decide)),h]

theorem authorize_parses : parse (authorizeLine user pass) = some (authorizeValue user pass) ↔
    Plain user ∧ Plain pass := by
  have hplain := plain_all [user,pass]
  simp only [List.forall_mem_cons,List.not_mem_nil,false_implies,implies_true,and_true] at hplain
  rw [hplain,← utf8_authorize]
  constructor
  · intro h
    obtain ⟨r,hr⟩ := parse_prefix (t := []) h
    rw [List.append_nil] at hr
    exact ⟨authorize_back hr,utf8_of_parse h⟩
  · rintro ⟨⟨hu,hp⟩,hutf⟩
    have hlen : (authorizeLine user pass).length+1 = (authorizeLine user pass).length-7+8 := by
      rw [authorizeLine_eq]
      simp only [List.length_cons,List.length_append]
      omega
    unfold parse
    rw [if_pos hutf,hlen,authorize_value hu hp]
    rfl

theorem submit_parses : parse s.line = some s.value ↔
    (∀ x ∈ s.params, Plain x) ∧ s.text.length ≤ 511 := by
  rw [plain_all,← utf8_text,line_text]
  constructor
  · intro h
    obtain ⟨r,hr⟩ := parse_prefix (t := s.text.drop 511) h
    rw [List.take_append_drop] at hr
    obtain ⟨hclean,hnil⟩ := submit_back hr
    have hshort : s.text.length ≤ 511 := List.drop_eq_nil_iff.mp (List.append_eq_nil_iff.mp hnil).2
    have hutf := utf8_of_parse h
    rw [List.take_of_length_le hshort] at hutf
    exact ⟨⟨hclean,hutf⟩,hshort⟩
  · rintro ⟨⟨hclean,hutf⟩,hshort⟩
    have hlen : s.text.length+1 = s.text.length-10+11 := by
      rw [text_eq]
      simp only [List.length_cons,List.length_append]
      have h := (decimal_head s.id).1
      omega
    unfold parse
    rw [List.take_of_length_le hshort,if_pos hutf,hlen,submit_value hclean]
    rfl

theorem hexChar_plain : ∀ n < 16, 32 ≤ hexChar n ∧ hexChar n < 128 ∧ hexChar n ≠ 34 ∧ hexChar n ≠ 92 := by
  decide

theorem plain_of_ascii {x : CStr} (h : ∀ b ∈ x, 32 ≤ b ∧ b < 128 ∧ b ≠ 34 ∧ b ≠ 92) : Plain x where
  clean b hb := ⟨(h b hb).1,(h b hb).2.2⟩
  utf8 := by
    have hu := utf8_ascii (x := x) (y := []) (fun b hb => (h b hb).2.1)
    rw [List.append_nil] at hu
    rw [hu]
    rfl

theorem bin2hex_chars (b : Bytes) :
    ∀ x ∈ bin2hex b, 32 ≤ x ∧ x < 128 ∧ x ≠ 34 ∧ x ≠ 92 := by
  intro x hx
  obtain ⟨y,-,hy⟩ := List.mem_flatMap.mp hx
  have hlt := y.toNat_lt
  rcases List.mem_cons.mp hy with rfl | hy
  · exact hexChar_plain _ (by omega)
  · rw [List.mem_singleton.mp hy]
    exact hexChar_plain _ (by omega)

theorem bin2hex_plain (b : Bytes) : Plain (bin2hex b) := plain_of_ascii (bin2hex_chars b)

theorem prefixed_plain (b : Bytes) : Plain (ascii "0x" ++ bin2hex b) := by
  refine plain_of_ascii (fun x hx => ?_)
  rcases List.mem_append.mp hx with hx | hx
  · exact (show ∀ b ∈ ascii "0x", 32 ≤ b ∧ b < 128 ∧ b ≠ 34 ∧ b ≠ 92 by simp [ascii]) x hx
  · exact bin2hex_chars b x hx

/-- What the miner prints itself is plain: only the user and the job id are not its own. -/
theorem params_plain (d : Dialect) (user : CStr) (w : Work) (nonce : UInt64) (mixhash : Bytes)
    (id : Nat) : (∀ x ∈ (submission d user w nonce mixhash id).params, Plain x) ↔
    Plain user ∧ Plain w.jobId := by
  by_cases hd : d = .progpow
  · simp [submission,hd,Submission.params,progpowBuildStratumRequest,prefixed_plain]
  · simp [submission,hd,Submission.params,stdLeBuildStratumRequest,bin2hex_plain]

/-- Both lines read back as what they were printed from when nothing in them needs to be
escaped and the buffer holds the share, and only then. -/
theorem lines_read_back (d : Dialect) (user pass : CStr) (w : Work) (nonce : UInt64)
    (mixhash : Bytes) (id : Nat) :
    parse (authorizeLine user pass) = some (authorizeValue user pass) ∧
      parse (submission d user w nonce mixhash id).line =
        some (submission d user w nonce mixhash id).value ↔
    Plain user ∧ Plain pass ∧ Plain w.jobId ∧
      (submission d user w nonce mixhash id).text.length ≤ 511 := by
  rw [authorize_parses,submit_parses,params_plain]
  constructor
  · rintro ⟨⟨huser,hpass⟩,⟨-,hjob⟩,hlen⟩
    exact ⟨huser,hpass,hjob,hlen⟩
  · rintro ⟨huser,hpass,hjob,hlen⟩
    exact ⟨⟨huser,hpass⟩,⟨huser,hjob⟩,hlen⟩

theorem user_with_a_quote :
    ¬ ∀ (d : Dialect) (user pass : CStr) (w : Work) (nonce : UInt64) (mixhash : Bytes) (id : Nat),
      parse (authorizeLine user pass) = some (authorizeValue user pass) ∧
        parse (submission d user w nonce mixhash id).line =
          some (submission d user w nonce mixhash id).value := by
  intro h
  have hp := authorize_parses.mp (h .progpow (ascii "a\"b") [] ⟨[],[],[]⟩ 0 [] 0).1
  exact absurd hp.1 (by decide)

end VkMiner.Stratum
