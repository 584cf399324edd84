import NaturalLanguage.Links.Graph

/-!
# A small network

Who follows whom among a few people. Every row gives a person and the people followed.
-/

namespace NaturalLanguage.LinkGraph

/-- The network that pages are ranked in. -/
def network : LinkGraph := ofRows [
  ("fatih", ["erdem", "mehmetbarancay", "tayyiperdogdu", "cemal", "taylan", "yigit", "serkan",
    "tuna", "cihanokyay"]),
  ("cemal", ["taylan", "yigit", "serkan", "sinan"]),
  ("erdem", ["fatih", "yigit"]),
  ("taylan", ["yigit", "serkan", "tuna", "cemal"]),
  ("yigit", ["yigit", "serkan", "tuna", "can"]),
  ("serkan", ["yigit", "serkan", "tuna", "erdem"]),
  ("tuna", ["yigit", "taylan", "can"]),
  ("can", ["yigit", "serkan", "fatih", "sinan"]),
  ("sinan", ["yigit", "serkan", "fatih", "cemal"]),
  ("suatavni", ["tayyiperdogdu", "abdullahcicek", "mehmetbarancay"]),
  ("tayyiperdogdu", ["abdullahcicek", "suatavni", "feyzullahgulen"]),
  ("abdullahcicek", ["feyzullahgulen"]),
  ("feyzullahgulen", ["suatavni", "tayyiperdogdu", "suatavni"]),
  ("mehmetbarancay", ["suatavni", "feyzullahgulen"]),
  ("cihanokyay", ["fatihkadirakin", "sametatdag", "gokmengorgen"]),
  ("fatihkadirakin", ["cihanokyay", "berkerpeksag", "johnresig"]),
  ("sametatdag", ["cihanokyay", "fatihkadirakin", "berkerpeksag"]),
  ("berkerpeksag", ["cihanokyay", "gokmengorgen"]),
  ("gokmengorgen", ["cihanokyay", "sametatdag", "berkerpeksag"]),
  ("eminbugrasakal", ["eminbugrasakal"]),
  ("johnresig", ["douglescrockford", "addyosmani", "marijnhaverbeke"]),
  ("addyosmani", ["douglescrockford", "johnresig", "marijnhaverbeke"]),
  ("trevorburnham", ["douglescrockford", "johnresig", "marijnhaverbeke"]),
  ("marijnhaverbeke", ["douglescrockford", "addyosmani", "trevorburnham"]),
  ("douglescrockford", ["martinfowler", "trevorburnham"]),
  ("martinfowler", ["douglescrockford", "johnresig"])]

end NaturalLanguage.LinkGraph
