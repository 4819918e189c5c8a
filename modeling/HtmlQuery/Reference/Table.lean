/-!
# Named character references

The names that may stand between `&` and `;`, each with the character it stands for. Names tell capitals
from small letters: `Dagger` and `dagger` are two.
-/

namespace HtmlQuery.Reference

/-- The named references. -/
def table : List (String × Char) :=
  [ -- markup escapes
   ("amp", '&'), ("lt", '<'), ("gt", '>'), ("quot", '"'),
   ("apos", '\''), ("nbsp", '\u00a0'),
   -- typography
   ("copy", '\u00a9'), ("reg", '\u00ae'), ("trade", '\u2122'), ("mdash", '\u2014'),
   ("ndash", '\u2013'), ("lsquo", '\u2018'), ("rsquo", '\u2019'), ("ldquo", '\u201c'),
   ("rdquo", '\u201d'), ("hellip", '\u2026'), ("bull", '\u2022'), ("middot", '\u00b7'),
   ("para", '\u00b6'), ("sect", '\u00a7'), ("dagger", '\u2020'), ("Dagger", '\u2021'),
   ("permil", '\u2030'), ("prime", '\u2032'), ("Prime", '\u2033'), ("laquo", '\u00ab'),
   ("raquo", '\u00bb'), ("lsaquo", '\u2039'), ("rsaquo", '\u203a'),
   -- currency
   ("cent", '\u00a2'), ("pound", '\u00a3'), ("yen", '\u00a5'), ("euro", '\u20ac'),
   ("curren", '\u00a4'),
   -- math
   ("times", '\u00d7'), ("divide", '\u00f7'), ("plusmn", '\u00b1'), ("minus", '\u2212'),
   ("le", '\u2264'), ("ge", '\u2265'), ("ne", '\u2260'), ("asymp", '\u2248'),
   ("equiv", '\u2261'), ("sum", '\u2211'), ("prod", '\u220f'), ("radic", '\u221a'),
   ("infin", '\u221e'), ("int", '\u222b'), ("part", '\u2202'), ("nabla", '\u2207'),
   ("isin", '\u2208'), ("notin", '\u2209'), ("ni", '\u220b'), ("sub", '\u2282'),
   ("sup", '\u2283'), ("sube", '\u2286'), ("supe", '\u2287'), ("cup", '\u222a'),
   ("cap", '\u2229'), ("empty", '\u2205'), ("forall", '\u2200'), ("exist", '\u2203'),
   ("and", '\u2227'), ("or", '\u2228'), ("not", '\u00ac'), ("ang", '\u2220'),
   ("perp", '\u22a5'), ("there4", '\u2234'), ("sim", '\u223c'), ("cong", '\u2245'),
   ("prop", '\u221d'), ("deg", '\u00b0'), ("frac14", '\u00bc'), ("frac12", '\u00bd'),
   ("frac34", '\u00be'), ("sup1", '\u00b9'), ("sup2", '\u00b2'), ("sup3", '\u00b3'),
   ("micro", '\u00b5'),
   -- arrows
   ("larr", '\u2190'), ("uarr", '\u2191'), ("rarr", '\u2192'), ("darr", '\u2193'),
   ("harr", '\u2194'), ("lArr", '\u21d0'), ("uArr", '\u21d1'), ("rArr", '\u21d2'),
   ("dArr", '\u21d3'), ("hArr", '\u21d4'),
   -- Greek
   ("Alpha", '\u0391'), ("alpha", '\u03b1'), ("Beta", '\u0392'), ("beta", '\u03b2'),
   ("Gamma", '\u0393'), ("gamma", '\u03b3'), ("Delta", '\u0394'), ("delta", '\u03b4'),
   ("Epsilon", '\u0395'), ("epsilon", '\u03b5'), ("Zeta", '\u0396'), ("zeta", '\u03b6'),
   ("Eta", '\u0397'), ("eta", '\u03b7'), ("Theta", '\u0398'), ("theta", '\u03b8'),
   ("Iota", '\u0399'), ("iota", '\u03b9'), ("Kappa", '\u039a'), ("kappa", '\u03ba'),
   ("Lambda", '\u039b'), ("lambda", '\u03bb'), ("Mu", '\u039c'), ("mu", '\u03bc'),
   ("Nu", '\u039d'), ("nu", '\u03bd'), ("Xi", '\u039e'), ("xi", '\u03be'),
   ("Omicron", '\u039f'), ("omicron", '\u03bf'), ("Pi", '\u03a0'), ("pi", '\u03c0'),
   ("Rho", '\u03a1'), ("rho", '\u03c1'), ("Sigma", '\u03a3'), ("sigma", '\u03c3'),
   ("sigmaf", '\u03c2'), ("Tau", '\u03a4'), ("tau", '\u03c4'), ("Upsilon", '\u03a5'),
   ("upsilon", '\u03c5'), ("Phi", '\u03a6'), ("phi", '\u03c6'), ("Chi", '\u03a7'),
   ("chi", '\u03c7'), ("Psi", '\u03a8'), ("psi", '\u03c8'), ("Omega", '\u03a9'),
   ("omega", '\u03c9'),
   -- Latin-1 punctuation
   ("iexcl", '\u00a1'), ("iquest", '\u00bf'), ("ordf", '\u00aa'), ("ordm", '\u00ba'),
   ("acute", '\u00b4'), ("cedil", '\u00b8'), ("uml", '\u00a8'), ("macr", '\u00af'),
   ("shy", '\u00ad'), ("brvbar", '\u00a6'),
   -- card suits and shapes
   ("spades", '\u2660'), ("clubs", '\u2663'), ("hearts", '\u2665'), ("diams", '\u2666'),
   ("loz", '\u25ca'),
   -- zero-width joiners
   ("zwj", '\u200d'), ("zwnj", '\u200c')]

def lookup (name : String) : Option Char := table.lookup name

end HtmlQuery.Reference
