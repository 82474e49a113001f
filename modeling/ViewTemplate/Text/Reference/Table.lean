/-! # Named character references

The reference names of the HTML standard with the code points they stand for, and the names that are
also recognised without a closing semicolon.
-/

namespace ViewTemplate.Text.Reference

/-- An entry gives a code point in base sixteen and its names; a second code point stands after a point.
An entry without one is for the code point after that of the entry before it. -/
def entries : String :=
  "9=Tab NewLine 21=excl QUOT,quot num dollar percnt AMP,amp apos lpar rpar ast,midast plus comma
2E=period sol 3A=colon semi LT,lt 3C.20D2=nvlt equals 3D.20E5=bne GT,gt 3E.20D2=nvgt quest commat
5B=lbrack,lsqb bsol rbrack,rsqb Hat UnderBar,lowbar DiacriticalGrave,grave 66.6A=fjlig
7B=lbrace,lcub VerticalLine,verbar,vert rbrace,rcub A0=NonBreakingSpace,nbsp iexcl cent pound curren
yen brvbar sect Dot,DoubleDot,die,uml COPY,copy ordf laquo not shy REG,circledR,reg macr,strns deg
PlusMinus,plusmn,pm sup2 sup3 DiacriticalAcute,acute micro para CenterDot,centerdot,middot
Cedilla,cedil sup1 ordm raquo frac14 frac12,half frac34 iquest Agrave Aacute Acirc Atilde Auml
Aring,angst AElig Ccedil Egrave Eacute Ecirc Euml Igrave Iacute Icirc Iuml ETH Ntilde Ograve Oacute
Ocirc Otilde Ouml times Oslash Ugrave Uacute Ucirc Uuml Yacute THORN szlig agrave aacute acirc
atilde auml aring aelig ccedil egrave eacute ecirc euml igrave iacute icirc iuml eth ntilde ograve
oacute ocirc otilde ouml div,divide oslash ugrave uacute ucirc uuml yacute thorn yuml Amacr amacr
Abreve abreve Aogon aogon Cacute cacute Ccirc ccirc Cdot cdot Ccaron ccaron Dcaron dcaron Dstrok
dstrok Emacr emacr 116=Edot edot Eogon eogon Ecaron ecaron Gcirc gcirc Gbreve gbreve Gdot gdot
Gcedil 124=Hcirc hcirc Hstrok hstrok Itilde itilde Imacr imacr 12E=Iogon iogon Idot imath,inodot
IJlig ijlig Jcirc jcirc Kcedil kcedil kgreen Lacute lacute Lcedil lcedil Lcaron lcaron Lmidot lmidot
Lstrok lstrok Nacute nacute Ncedil ncedil Ncaron ncaron napos ENG eng Omacr omacr 150=Odblac odblac
OElig oelig Racute racute Rcedil rcedil Rcaron rcaron Sacute sacute Scirc scirc Scedil scedil Scaron
scaron Tcedil tcedil Tcaron tcaron Tstrok tstrok Utilde utilde Umacr umacr Ubreve ubreve Uring uring
Udblac udblac Uogon uogon Wcirc wcirc Ycirc ycirc Yuml Zacute zacute Zdot zdot Zcaron zcaron
192=fnof 1B5=imped 1F5=gacute 237=jmath 2C6=circ Hacek,caron 2D8=Breve,breve DiacriticalDot,dot ring
ogon DiacriticalTilde,tilde DiacriticalDoubleAcute,dblac 311=DownBreve 391=Alpha Beta Gamma Delta
Epsilon Zeta Eta Theta Iota Kappa Lambda Mu Nu Xi Omicron Pi Rho 3A3=Sigma Tau Upsilon Phi Chi Psi
Omega,ohm 3B1=alpha beta gamma delta epsi,epsilon zeta eta theta iota kappa lambda mu nu xi omicron
pi rho sigmaf,sigmav,varsigma sigma tau upsi,upsilon phi chi psi omega 3D1=thetasym,thetav,vartheta
Upsi,upsih 3D5=phiv,straightphi,varphi piv,varpi 3DC=Gammad digamma,gammad 3F0=kappav,varkappa
rhov,varrho 3F5=epsiv,straightepsilon,varepsilon backepsilon,bepsi 401=IOcy DJcy GJcy Jukcy DScy
Iukcy YIcy Jsercy LJcy NJcy TSHcy KJcy 40E=Ubrcy DZcy Acy Bcy Vcy Gcy Dcy IEcy ZHcy Zcy Icy Jcy Kcy
Lcy Mcy Ncy Ocy Pcy Rcy Scy Tcy Ucy Fcy KHcy TScy CHcy SHcy SHCHcy HARDcy Ycy SOFTcy Ecy YUcy YAcy
acy bcy vcy gcy dcy iecy zhcy zcy icy jcy kcy lcy mcy ncy ocy pcy rcy scy tcy ucy fcy khcy tscy chcy
shcy shchcy hardcy ycy softcy ecy yucy yacy 451=iocy djcy gjcy jukcy dscy iukcy yicy jsercy ljcy
njcy tshcy kjcy 45E=ubrcy dzcy 2002=ensp emsp emsp13 emsp14 2007=numsp puncsp ThinSpace,thinsp
VeryThinSpace,hairsp
NegativeMediumSpace,NegativeThickSpace,NegativeThinSpace,NegativeVeryThinSpace,ZeroWidthSpace zwnj
zwj lrm rlm dash,hyphen 2013=ndash mdash horbar Verbar,Vert 2018=OpenCurlyQuote,lsquo
CloseCurlyQuote,rsquo,rsquor lsquor,sbquo 201C=OpenCurlyDoubleQuote,ldquo
CloseCurlyDoubleQuote,rdquo,rdquor bdquo,ldquor 2020=dagger Dagger,ddagger bull,bullet 2025=nldr
hellip,mldr 2030=permil pertenk prime Prime tprime backprime,bprime 2039=lsaquo rsaquo
203E=OverBar,oline 2041=caret 2043=hybull frasl 204F=bsemi 2057=qprime 205F=MediumSpace
205F.200A=ThickSpace NoBreak ApplyFunction,af InvisibleTimes,it InvisibleComma,ic 20AC=euro
20DB=TripleDot,tdot DotDot 2102=Copf,complexes 2105=incare 210A=gscr HilbertSpace,Hscr,hamilt
Hfr,Poincareplane Hopf,quaternions planckh hbar,hslash,planck,plankv Iscr,imagline
Ifr,Im,image,imagpart Laplacetrf,Lscr,lagran ell 2115=Nopf,naturals numero copysr weierp,wp
Popf,primes Qopf,rationals Rscr,realine Re,Rfr,real,realpart Ropf,reals rx 2122=TRADE,trade
2124=Zopf,integers 2127=mho Zfr,zeetrf iiota 212C=Bernoullis,Bscr,bernou Cayleys,Cfr 212F=escr
Escr,expectation Fouriertrf,Fscr 2133=Mellintrf,Mscr,phmmat order,orderof,oscr alefsym,aleph beth
gimel daleth 2145=CapitalDifferentialD,DD DifferentialD,dd ExponentialE,ee,exponentiale
ImaginaryI,ii 2153=frac13 frac23 frac15 frac25 frac35 frac45 frac16 frac56 frac18 frac38 frac58
frac78 2190=LeftArrow,ShortLeftArrow,larr,leftarrow,slarr ShortUpArrow,UpArrow,uarr,uparrow
RightArrow,ShortRightArrow,rarr,rightarrow,srarr DownArrow,ShortDownArrow,darr,downarrow
LeftRightArrow,harr,leftrightarrow UpDownArrow,updownarrow,varr UpperLeftArrow,nwarr,nwarrow
UpperRightArrow,nearr,nearrow LowerRightArrow,searr,searrow LowerLeftArrow,swarr,swarrow
nlarr,nleftarrow nrarr,nrightarrow 219D=rarrw,rightsquigarrow 219D.338=nrarrw Larr,twoheadleftarrow
Uarr Rarr,twoheadrightarrow Darr larrtl,leftarrowtail rarrtl,rightarrowtail LeftTeeArrow,mapstoleft
UpTeeArrow,mapstoup RightTeeArrow,map,mapsto DownTeeArrow,mapstodown 21A9=hookleftarrow,larrhk
hookrightarrow,rarrhk larrlp,looparrowleft looparrowright,rarrlp harrw,leftrightsquigarrow
nharr,nleftrightarrow 21B0=Lsh,lsh Rsh,rsh ldsh rdsh 21B5=crarr cularr,curvearrowleft
curarr,curvearrowright 21BA=circlearrowleft,olarr circlearrowright,orarr
LeftVector,leftharpoonup,lharu DownLeftVector,leftharpoondown,lhard
RightUpVector,uharr,upharpoonright LeftUpVector,uharl,upharpoonleft RightVector,rharu,rightharpoonup
DownRightVector,rhard,rightharpoondown RightDownVector,dharr,downharpoonright
LeftDownVector,dharl,downharpoonleft RightArrowLeftArrow,rightleftarrows,rlarr
UpArrowDownArrow,udarr LeftArrowRightArrow,leftrightarrows,lrarr leftleftarrows,llarr
upuparrows,uuarr rightrightarrows,rrarr ddarr,downdownarrows
ReverseEquilibrium,leftrightharpoons,lrhar Equilibrium,rightleftharpoons,rlhar nLeftarrow,nlArr
nLeftrightarrow,nhArr nRightarrow,nrArr DoubleLeftArrow,Leftarrow,lArr DoubleUpArrow,Uparrow,uArr
DoubleRightArrow,Implies,Rightarrow,rArr DoubleDownArrow,Downarrow,dArr
DoubleLeftRightArrow,Leftrightarrow,hArr,iff DoubleUpDownArrow,Updownarrow,vArr nwArr neArr seArr
swArr Lleftarrow,lAarr Rrightarrow,rAarr 21DD=zigrarr 21E4=LeftArrowBar,larrb RightArrowBar,rarrb
21F5=DownArrowUpArrow,duarr 21FD=loarr roarr hoarr ForAll,forall comp,complement PartialD,part
2202.338=npart Exists,exist NotExists,nexist,nexists empty,emptyset,emptyv,varnothing 2207=Del,nabla
Element,in,isin,isinv NotElement,notin,notinva 220B=ReverseElement,SuchThat,ni,niv
NotReverseElement,notni,notniva 220F=Product,prod Coproduct,coprod Sum,sum minus MinusPlus,mnplus,mp
dotplus,plusdo 2216=Backslash,setminus,setmn,smallsetminus,ssetmn lowast SmallCircle,compfn
221A=Sqrt,radic 221D=Proportional,prop,propto,varpropto,vprop infin angrt ang,angle 2220.20D2=nang
angmsd,measuredangle angsph VerticalBar,mid,shortmid,smid NotVerticalBar,nmid,nshortmid,nsmid
DoubleVerticalBar,par,parallel,shortparallel,spar
NotDoubleVerticalBar,npar,nparallel,nshortparallel,nspar and,wedge or,vee cap 2229.FE00=caps cup
222A.FE00=cups Integral,int Int iiint,tint ContourIntegral,conint,oint Conint,DoubleContourIntegral
Cconint cwint ClockwiseContourIntegral,cwconint CounterClockwiseContourIntegral,awconint
Therefore,there4,therefore Because,becaus,because ratio Colon,Proportion dotminus,minusd 223A=mDDot
homtht Tilde,sim,thicksim,thksim 223C.20D2=nvsim backsim,bsim 223D.331=race ac,mstpos 223E.333=acE
acd VerticalTilde,wr,wreath NotTilde,nsim EqualTilde,eqsim,esim 2242.338=NotEqualTilde,nesim
TildeEqual,sime,simeq NotTildeEqual,nsime,nsimeq TildeFullEqual,cong simne NotTildeFullEqual,ncong
TildeTilde,ap,approx,asymp,thickapprox,thkap NotTildeTilde,nap,napprox ape,approxeq apid
224B.338=napid backcong,bcong CupCap,asympeq 224D.20D2=nvap Bumpeq,HumpDownHump,bump
224E.338=NotHumpDownHump,nbump HumpEqual,bumpe,bumpeq 224F.338=NotHumpEqual,nbumpe
DotEqual,doteq,esdot 2250.338=nedot doteqdot,eDot efDot,fallingdotseq erDot,risingdotseq
Assign,colone,coloneq ecolon,eqcolon ecir,eqcirc circeq,cire 2259=wedgeq veeeq 225C=triangleq,trie
225F=equest,questeq NotEqual,ne Congruent,equiv 2261.20E5=bnequiv NotCongruent,nequiv 2264=le,leq
2264.20D2=nvle GreaterEqual,ge,geq 2265.20D2=nvge LessFullEqual,lE,leqq 2266.338=nlE,nleqq
GreaterFullEqual,gE,geqq 2267.338=NotGreaterFullEqual,ngE,ngeqq lnE,lneqq 2268.FE00=lvertneqq,lvnE
gnE,gneqq 2269.FE00=gvertneqq,gvnE Lt,NestedLessLess,ll 226A.338=NotLessLess,nLtv 226A.20D2=nLt
Gt,NestedGreaterGreater,gg 226B.338=NotGreaterGreater,nGtv 226B.20D2=nGt between,twixt NotCupCap
NotLess,nless,nlt NotGreater,ngt,ngtr NotLessEqual,nle,nleq NotGreaterEqual,nge,ngeq
LessTilde,lesssim,lsim GreaterTilde,gsim,gtrsim NotLessTilde,nlsim NotGreaterTilde,ngsim
LessGreater,lessgtr,lg GreaterLess,gl,gtrless NotLessGreater,ntlg NotGreaterLess,ntgl
Precedes,pr,prec Succeeds,sc,succ PrecedesSlantEqual,prcue,preccurlyeq
SucceedsSlantEqual,sccue,succcurlyeq PrecedesTilde,precsim,prsim SucceedsTilde,scsim,succsim
227F.338=NotSucceedsTilde NotPrecedes,npr,nprec NotSucceeds,nsc,nsucc sub,subset
2282.20D2=NotSubset,nsubset,vnsub Superset,sup,supset 2283.20D2=NotSuperset,nsupset,vnsup nsub nsup
SubsetEqual,sube,subseteq SupersetEqual,supe,supseteq NotSubsetEqual,nsube,nsubseteq
NotSupersetEqual,nsupe,nsupseteq subne,subsetneq 228A.FE00=varsubsetneq,vsubne supne,supsetneq
228B.FE00=varsupsetneq,vsupne 228D=cupdot UnionPlus,uplus SquareSubset,sqsub,sqsubset
228F.338=NotSquareSubset SquareSuperset,sqsup,sqsupset 2290.338=NotSquareSuperset
SquareSubsetEqual,sqsube,sqsubseteq SquareSupersetEqual,sqsupe,sqsupseteq SquareIntersection,sqcap
2293.FE00=sqcaps SquareUnion,sqcup 2294.FE00=sqcups CirclePlus,oplus CircleMinus,ominus
CircleTimes,otimes osol CircleDot,odot circledcirc,ocir circledast,oast 229D=circleddash,odash
boxplus,plusb boxminus,minusb boxtimes,timesb dotsquare,sdotb RightTee,vdash LeftTee,dashv
DownTee,top UpTee,bot,bottom,perp 22A7=models DoubleRightTee,vDash Vdash Vvdash VDash nvdash nvDash
nVdash nVDash prurel 22B2=LeftTriangle,vartriangleleft,vltri RightTriangle,vartriangleright,vrtri
LeftTriangleEqual,ltrie,trianglelefteq 22B4.20D2=nvltrie RightTriangleEqual,rtrie,trianglerighteq
22B5.20D2=nvrtrie origof imof multimap,mumap hercon intcal,intercal veebar 22BD=barvee angrtvb lrtri
Wedge,bigwedge,xwedge Vee,bigvee,xvee Intersection,bigcap,xcap Union,bigcup,xcup
Diamond,diam,diamond sdot Star,sstarf divideontimes,divonx bowtie ltimes rtimes
leftthreetimes,lthree rightthreetimes,rthree backsimeq,bsime curlyvee,cuvee curlywedge,cuwed
Sub,Subset Sup,Supset Cap Cup fork,pitchfork epar lessdot,ltdot gtdot,gtrdot Ll 22D8.338=nLl Gg,ggg
22D9.338=nGg LessEqualGreater,leg,lesseqgtr 22DA.FE00=lesg GreaterEqualLess,gel,gtreqless
22DB.FE00=gesl 22DE=cuepr,curlyeqprec cuesc,curlyeqsucc NotPrecedesSlantEqual,nprcue
NotSucceedsSlantEqual,nsccue NotSquareSubsetEqual,nsqsube NotSquareSupersetEqual,nsqsupe 22E6=lnsim
gnsim precnsim,prnsim scnsim,succnsim NotLeftTriangle,nltri,ntriangleleft
NotRightTriangle,nrtri,ntriangleright NotLeftTriangleEqual,nltrie,ntrianglelefteq
NotRightTriangleEqual,nrtrie,ntrianglerighteq vellip ctdot utdot dtdot disin isinsv isins isindot
22F5.338=notindot notinvc notinvb 22F9=isinE 22F9.338=notinE nisd xnis nis notnivc notnivb
2305=barwed,barwedge Barwed,doublebarwedge 2308=LeftCeiling,lceil RightCeiling,rceil
LeftFloor,lfloor RightFloor,rfloor drcrop dlcrop urcrop ulcrop bnot 2312=profline profsurf
2315=telrec target 231C=ulcorn,ulcorner urcorn,urcorner dlcorn,llcorner drcorn,lrcorner
2322=frown,sfrown smile,ssmile 232D=cylcty profalar 2336=topbot 233D=ovbar 233F=solbar 237C=angzarr
23B0=lmoust,lmoustache rmoust,rmoustache 23B4=OverBracket,tbrk UnderBracket,bbrk bbrktbrk
23DC=OverParenthesis UnderParenthesis OverBrace UnderBrace 23E2=trpezium 23E7=elinters 2423=blank
24C8=circledS,oS 2500=HorizontalLine,boxh 2502=boxv 250C=boxdr 2510=boxdl 2514=boxur 2518=boxul
251C=boxvr 2524=boxvl 252C=boxhd 2534=boxhu 253C=boxvh 2550=boxH boxV boxdR boxDr boxDR boxdL boxDl
boxDL boxuR boxUr boxUR boxuL boxUl boxUL boxvR boxVr boxVR boxvL boxVl boxVL boxHd boxhD boxHD
boxHu boxhU boxHU boxvH boxVh boxVH 2580=uhblk 2584=lhblk 2588=block 2591=blk14 blk12 blk34
25A1=Square,squ,square 25AA=FilledVerySmallSquare,blacksquare,squarf,squf EmptyVerySmallSquare
25AD=rect marker 25B1=fltns 25B3=bigtriangleup,xutri blacktriangle,utrif triangle,utri
25B8=blacktriangleright,rtrif rtri,triangleright 25BD=bigtriangledown,xdtri blacktriangledown,dtrif
dtri,triangledown 25C2=blacktriangleleft,ltrif ltri,triangleleft 25CA=loz,lozenge cir 25EC=tridot
25EF=bigcirc,xcirc 25F8=ultri urtri lltri EmptySmallSquare FilledSmallSquare 2605=bigstar,starf star
260E=phone 2640=female 2642=male 2660=spades,spadesuit 2663=clubs,clubsuit 2665=hearts,heartsuit
diamondsuit,diams 266A=sung 266D=flat natur,natural sharp 2713=check,checkmark 2717=cross
2720=malt,maltese 2736=sext 2758=VerticalSeparator 2772=lbbrk rbbrk 27C8=bsolhsub suphsol
27E6=LeftDoubleBracket,lobrk RightDoubleBracket,robrk LeftAngleBracket,lang,langle
RightAngleBracket,rang,rangle Lang Rang loang roang 27F5=LongLeftArrow,longleftarrow,xlarr
LongRightArrow,longrightarrow,xrarr LongLeftRightArrow,longleftrightarrow,xharr
DoubleLongLeftArrow,Longleftarrow,xlArr DoubleLongRightArrow,Longrightarrow,xrArr
DoubleLongLeftRightArrow,Longleftrightarrow,xhArr 27FC=longmapsto,xmap 27FF=dzigrarr 2902=nvlArr
nvrArr nvHarr Map 290C=lbarr bkarow,rbarr lBarr dbkarow,rBarr RBarr,drbkarow DDotrahd UpArrowBar
DownArrowBar 2916=Rarrtl 2919=latail ratail lAtail rAtail larrfs rarrfs larrbfs rarrbfs 2923=nwarhk
nearhk hksearow,searhk hkswarow,swarhk nwnear nesear,toea seswar,tosa swnwar 2933=rarrc
2933.338=nrarrc 2935=cudarrr ldca rdca cudarrl larrpl 293C=curarrm cularrp 2945=rarrpl 2948=harrcir
Uarrocir lurdshar ldrushar 294E=LeftRightVector RightUpDownVector DownLeftRightVector
LeftUpDownVector LeftVectorBar RightVectorBar RightUpVectorBar RightDownVectorBar DownLeftVectorBar
DownRightVectorBar LeftUpVectorBar LeftDownVectorBar LeftTeeVector RightTeeVector RightUpTeeVector
RightDownTeeVector DownLeftTeeVector DownRightTeeVector LeftUpTeeVector LeftDownTeeVector lHar uHar
rHar dHar luruhar ldrdhar ruluhar rdldhar lharul llhard rharul lrhard UpEquilibrium,udhar
ReverseUpEquilibrium,duhar RoundImplies erarr simrarr larrsim rarrsim rarrap ltlarr 2978=gtrarr
subrarr 297B=suplarr lfisht rfisht ufisht dfisht 2985=lopar ropar 298B=lbrke rbrke lbrkslu rbrksld
lbrksld rbrkslu langd rangd lparlt rpargt gtlPar ltrPar 299A=vzigzag 299C=vangrt angrtvbd 29A4=ange
range dwangle uwangle angmsdaa angmsdab angmsdac angmsdad angmsdae angmsdaf angmsdag angmsdah
bemptyv demptyv cemptyv raemptyv laemptyv ohbar omid opar 29B9=operp 29BB=olcross odsold 29BE=olcir
ofcir olt ogt cirscir cirE solb bsolb 29C9=boxbox 29CD=trisb rtriltri LeftTriangleBar
29CF.338=NotLeftTriangleBar RightTriangleBar 29D0.338=NotRightTriangleBar 29DC=iinfin infintie
nvinfin 29E3=eparsl smeparsl eqvparsl 29EB=blacklozenge,lozf 29F4=RuleDelayed 29F6=dsol
2A00=bigodot,xodot bigoplus,xoplus bigotimes,xotime 2A04=biguplus,xuplus 2A06=bigsqcup,xsqcup
2A0C=iiiint,qint fpartint 2A10=cirfnint awint rppolint scpolint npolint pointint quatint intlarhk
2A22=pluscir plusacir simplus plusdu plussim plustwo 2A29=mcomma minusdu 2A2D=loplus roplus Cross
timesd timesbar 2A33=smashp lotimes rotimes otimesas Otimes odiv triplus triminus tritime
intprod,iprod 2A3F=amalg capdot 2A42=ncup ncap capand cupor cupcap capcup cupbrcap capbrcup cupcup
capcap ccups ccaps 2A50=ccupssm 2A53=And Or andand oror orslope andslope 2A5A=andv orv andd ord
2A5F=wedbar 2A66=sdote 2A6A=simdot 2A6D=congdot 2A6D.338=ncongdot easter apacir apE 2A70.338=napE
eplus pluse Esim Colone Equal 2A77=ddotseq,eDDot equivDD ltcir gtcir ltquest gtquest
LessSlantEqual,leqslant,les 2A7D.338=NotLessSlantEqual,nleqslant,nles GreaterSlantEqual,geqslant,ges
2A7E.338=NotGreaterSlantEqual,ngeqslant,nges lesdot gesdot lesdoto gesdoto lesdotor gesdotol
lap,lessapprox gap,gtrapprox lne,lneq gne,gneq lnap,lnapprox gnap,gnapprox lEg,lesseqqgtr
gEl,gtreqqless lsime gsime lsimg gsiml lgE glE lesges gesles els,eqslantless egs,eqslantgtr elsdot
egsdot el eg 2A9D=siml simg simlE simgE LessLess 2AA1.338=NotNestedLessLess GreaterGreater
2AA2.338=NotNestedGreaterGreater 2AA4=glj gla ltcc gtcc lescc gescc smt lat smte 2AAC.FE00=smtes
late 2AAD.FE00=lates bumpE PrecedesEqual,pre,preceq 2AAF.338=NotPrecedesEqual,npre,npreceq
SucceedsEqual,sce,succeq 2AB0.338=NotSucceedsEqual,nsce,nsucceq 2AB3=prE scE precneqq,prnE
scnE,succneqq prap,precapprox scap,succapprox precnapprox,prnap scnap,succnapprox Pr Sc subdot
supdot subplus supplus submult supmult subedot supedot subE,subseteqq 2AC5.338=nsubE,nsubseteqq
supE,supseteqq 2AC6.338=nsupE,nsupseteqq subsim supsim 2ACB=subnE,subsetneqq
2ACB.FE00=varsubsetneqq,vsubnE supnE,supsetneqq 2ACC.FE00=varsupsetneqq,vsupnE 2ACF=csub csup csube
csupe subsup supsub subsub supsup suphsub supdsub forkv topfork mlcp 2AE4=Dashv,DoubleLeftTee
2AE6=Vdashl Barv vBar vBarv 2AEB=Vbar Not bNot rnmid cirmid midcir topcir nhpar parsim 2AFD=parsl
2AFD.20E5=nparsl FB00=fflig filig fllig ffilig ffllig 1D49C=Ascr 1D49E=Cscr Dscr 1D4A2=Gscr
1D4A5=Jscr Kscr 1D4A9=Nscr Oscr Pscr Qscr 1D4AE=Sscr Tscr Uscr Vscr Wscr Xscr Yscr Zscr ascr bscr
cscr dscr 1D4BB=fscr 1D4BD=hscr iscr jscr kscr lscr mscr nscr 1D4C5=pscr qscr rscr sscr tscr uscr
vscr wscr xscr yscr zscr 1D504=Afr Bfr 1D507=Dfr Efr Ffr Gfr 1D50D=Jfr Kfr Lfr Mfr Nfr Ofr Pfr Qfr
1D516=Sfr Tfr Ufr Vfr Wfr Xfr Yfr 1D51E=afr bfr cfr dfr efr ffr gfr hfr ifr jfr kfr lfr mfr nfr ofr
pfr qfr rfr sfr tfr ufr vfr wfr xfr yfr zfr Aopf Bopf 1D53B=Dopf Eopf Fopf Gopf 1D540=Iopf Jopf Kopf
Lopf Mopf 1D546=Oopf 1D54A=Sopf Topf Uopf Vopf Wopf Xopf Yopf 1D552=aopf bopf copf dopf eopf fopf
gopf hopf iopf jopf kopf lopf mopf nopf oopf popf qopf ropf sopf topf uopf vopf wopf xopf yopf zopf"

/-- Names that stand for their characters also where no semicolon follows. -/
def openEntries : String :=
  "AElig AMP Aacute Acirc Agrave Aring Atilde Auml COPY Ccedil ETH Eacute Ecirc Egrave Euml GT Iacute
Icirc Igrave Iuml LT Ntilde Oacute Ocirc Ograve Oslash Otilde Ouml QUOT REG THORN Uacute Ucirc
Ugrave Uuml Yacute aacute acirc acute aelig agrave amp aring atilde auml brvbar ccedil cedil cent
copy curren deg divide eacute ecirc egrave eth euml frac12 frac14 frac34 gt iacute icirc iexcl
igrave iquest iuml laquo lt macr micro middot nbsp not ntilde oacute ocirc ograve ordf ordm oslash
otilde ouml para plusmn pound quot raquo reg sect shy sup1 sup2 sup3 szlig thorn times uacute ucirc
ugrave uml uuml yacute yen yuml"

end ViewTemplate.Text.Reference
