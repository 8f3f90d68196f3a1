import Kicad.StdMap
import Kicad.NetinfoList
import Kicad.NetinfoInvariant
import Kicad.NetinfoRemoval
import Kicad.NetinfoRegistry
import Kicad.NetinfoLaws
import Kicad.NetinfoCodes
import Kicad.NetinfoDisplay
import Kicad.NetinfoMapping
import Kicad.TemplateFieldnames
import Kicad.TemplateParse
import Kicad.TemplateRuns
